import Mathlib.Data.List.Dedup
import Mathlib.Data.List.Induction
import Snii.Query.WandInvariant

/-!
# The bounded queue and the exhaustive scores

The queue of `scoring_query.cpp` is the library's bounded selection under
`rankLe`, so after any sequence of offers it holds the best `k` of them
(`after_queueOf`), its threshold never falls (`threshold_le_after_of_pos`), and draining it
returns them best first (`drainSorted_queueOf`).  The exhaustive path's map
holds each document once with the sum of its postings' scores, so both paths
select from lists of documents by the same ranking (`scoringQueryExhaustive_eq`).
-/

namespace Snii.Query.ScoringQuery

open Snii.Lib Snii.Lib.TopK

/-! ## The ranking is a linear order -/

/-- The heap's order: higher scores first, then lower documents. -/
theorem cmp_iff (a b : Entry) : cmp a b ↔ b.1 < a.1 ∨ (a.1 = b.1 ∧ a.2 < b.2) := by
  unfold cmp
  by_cases h : a.1 = b.1
  · simp [h]
  · simp [h]

/-- The order of the answers. -/
theorem rankLe_iff (a b : Entry) : rankLe a b ↔ b.1 < a.1 ∨ (a.1 = b.1 ∧ a.2 ≤ b.2) := by
  unfold rankLe
  rw [cmp_iff]
  constructor
  · intro h
    rcases lt_trichotomy b.1 a.1 with hlt | heq | hgt
    · exact Or.inl hlt
    · refine Or.inr ⟨heq.symm, ?_⟩
      by_contra hlt
      exact h (Or.inr ⟨heq, by omega⟩)
    · exact absurd (Or.inl hgt) h
  · rintro (hlt | ⟨heq, hle⟩) (hlt' | ⟨heq', hlt'⟩)
    · exact absurd hlt' (not_lt.mpr hlt.le)
    · exact absurd hlt (by rw [heq']; exact lt_irrefl _)
    · exact absurd hlt' (by rw [heq]; exact lt_irrefl _)
    · omega

instance : Std.Total rankLe where
  total a b := by
    rw [rankLe_iff, rankLe_iff]
    rcases lt_trichotomy a.1 b.1 with hlt | heq | hgt
    · exact Or.inr (Or.inl hlt)
    · rcases Nat.le_total a.2 b.2 with hle | hle
      · exact Or.inl (Or.inr ⟨heq, hle⟩)
      · exact Or.inr (Or.inr ⟨heq.symm, hle⟩)
    · exact Or.inl (Or.inl hgt)

instance : IsTrans Entry rankLe where
  trans a b c := by
    simp only [rankLe_iff]
    rintro (hab | ⟨hab, hab'⟩) (hbc | ⟨hbc, hbc'⟩)
    · exact Or.inl (hbc.trans hab)
    · exact Or.inl (hbc ▸ hab)
    · exact Or.inl (by rw [hab]; exact hbc)
    · exact Or.inr ⟨hab.trans hbc, hab'.trans hbc'⟩

instance : Std.Antisymm rankLe where
  antisymm a b := by
    simp only [rankLe_iff]
    rintro (hab | ⟨hab, hab'⟩) (hba | ⟨hba, hba'⟩)
    · exact absurd hab (not_lt.mpr hba.le)
    · exact absurd hab (by rw [hba]; exact lt_irrefl _)
    · exact absurd hba (by rw [hab]; exact lt_irrefl _)
    · exact Prod.ext hab (Nat.le_antisymm hab' hba')

theorem score_le_of_rankLe {a b : Entry} (h : rankLe a b) : b.1 ≤ a.1 := by
  rcases (rankLe_iff a b).mp h with hlt | ⟨heq, _⟩
  · exact hlt.le
  · exact heq.ge

/-- An offer to the queue is an offer to a best-of-`k` list. -/
theorem TopK.offer_eq (t : TopK) (docid : Nat) (score : ℚ) :
    t.offer docid score = { t with heap := offerK rankLe t.k t.heap (score, docid) } := by
  obtain ⟨k, heap⟩ := t
  simp only [TopK.offer, offerK, TopK.push]
  split
  · rfl
  · cases heap with
    | nil => rfl
    | cons worst rest =>
        have hiff : (score > worst.1 ∨ score = worst.1 ∧ docid < worst.2) ↔
            ¬ rankLe worst (score, docid) := by
          rw [rankLe, not_not, cmp_iff]
        by_cases h : rankLe worst (score, docid)
        · simp [hiff, h]
        · simp [hiff, h]

/-- The queue after the offers `l`. -/
def queueOf (k : Nat) (l : List Entry) : TopK :=
  { k := k, heap := (bestK rankLe k l).reverse }

theorem queueOf_nil (k : Nat) : queueOf k [] = { k := k, heap := [] } := by
  simp [queueOf, bestK]

/-- Offers in a row. -/
theorem after_queueOf (k : Nat) (l : List Entry) (o : Option Entry) :
    (queueOf k l).after o = queueOf k (o.toList ++ l) := by
  cases o with
  | none => rfl
  | some e =>
      rw [TopK.after, TopK.offer_eq]
      simp only [queueOf, offerK_reverse_bestK, Option.toList_some, List.singleton_append]

/-- A queue with room has no threshold. -/
theorem threshold_queueOf_of_lt {k : Nat} {l : List Entry} (h : l.length < k) :
    (queueOf k l).threshold = -1 := by
  rw [TopK.threshold, if_pos]
  simp only [queueOf, List.length_reverse, bestK_length]
  omega

/-- A full queue's threshold is the score of its head, which no kept entry is below. -/
theorem threshold_queueOf_of_le {k : Nat} {l : List Entry} (hk : 0 < k) (h : k ≤ l.length) :
    ∃ worst rest, (bestK rankLe k l).reverse = worst :: rest ∧
      (queueOf k l).threshold = worst.1 ∧ ∀ e ∈ bestK rankLe k l, worst.1 ≤ e.1 := by
  have hlen : (bestK rankLe k l).reverse.length = k := by
    rw [List.length_reverse, bestK_length]
    omega
  cases hq : (bestK rankLe k l).reverse with
  | nil => rw [hq] at hlen; simp at hlen; omega
  | cons worst rest =>
      refine ⟨worst, rest, rfl, ?_, ?_⟩
      · rw [TopK.threshold, if_neg (by simp only [queueOf]; omega)]
        simp [queueOf, hq]
      · intro e he
        have hsorted := List.pairwise_reverse.mpr (bestK_pairwise (r := rankLe) k l)
        rw [hq] at hsorted
        have hmem : e ∈ worst :: rest := by
          rw [← hq]
          exact List.mem_reverse.mpr he
        rcases List.mem_cons.mp hmem with rfl | hmem
        · exact le_refl _
        · exact score_le_of_rankLe ((List.pairwise_cons.mp hsorted).1 e hmem)

/-- One more offer to a full queue keeps every score at or above the old worst. -/
theorem score_le_of_mem_bestK_cons {k : Nat} {l : List Entry} {x worst e : Entry}
    {rest : List Entry} (hq : (bestK rankLe k l).reverse = worst :: rest)
    (hfull : (worst :: rest).length = k) (hworst : ∀ e ∈ bestK rankLe k l, worst.1 ≤ e.1)
    (he : e ∈ bestK rankLe k (x :: l)) : worst.1 ≤ e.1 := by
  have hmem : e ∈ offerK rankLe k (bestK rankLe k l).reverse x := by
    rw [offerK_reverse_bestK]
    exact List.mem_reverse.mpr he
  have hold : ∀ y ∈ worst :: rest, worst.1 ≤ y.1 := fun y hy =>
    hworst y (List.mem_reverse.mp (by rw [hq]; exact hy))
  unfold offerK at hmem
  rw [hq, if_neg (by omega)] at hmem
  dsimp only at hmem
  split at hmem
  · exact hold e hmem
  · rename_i hbetter
    rcases (List.mem_orderedInsert _).mp hmem with rfl | hmem
    · exact score_le_of_rankLe ((Std.Total.total (r := rankLe) e worst).resolve_right hbetter)
    · exact hold e (by simp [hmem])

/-- The threshold of a full queue never falls. -/
theorem threshold_le_after_of_full {k : Nat} (hk : 0 < k) {l : List Entry} (hfull : k ≤ l.length)
    (o : Option Entry) : (queueOf k l).threshold ≤ (queueOf k (o.toList ++ l)).threshold := by
  cases o with
  | none => exact le_refl _
  | some x =>
      obtain ⟨worst, rest, hq, heq, hworst⟩ := threshold_queueOf_of_le hk hfull
      obtain ⟨worst', rest', hq', heq', _⟩ :=
        threshold_queueOf_of_le hk (l := x :: l) (by simp; omega)
      have hlen : (worst :: rest).length = k := by
        rw [← hq, List.length_reverse, bestK_length]
        omega
      have hmem' : worst' ∈ bestK rankLe k (x :: l) :=
        List.mem_reverse.mp (by rw [hq']; simp)
      simp only [Option.toList_some, List.singleton_append]
      rw [heq, heq']
      exact score_le_of_mem_bestK_cons hq hlen hworst hmem'

/-- A positive threshold never falls: the queue is full. -/
theorem threshold_le_after_of_pos {k : Nat} (hk : 0 < k) {l : List Entry}
    (hpos : 0 < (queueOf k l).threshold) (o : Option Entry) :
    (queueOf k l).threshold ≤ (queueOf k (o.toList ++ l)).threshold := by
  rcases Nat.lt_or_ge l.length k with hlt | hge
  · rw [threshold_queueOf_of_lt hlt] at hpos
    linarith
  · exact threshold_le_after_of_full hk hge o

/-! ## Hits -/

/-- A queue entry as a returned hit. -/
def toHit (e : Entry) : ScoredDoc := { docid := e.2, score := e.1 }

theorem toHit_injective : Function.Injective toHit := by
  rintro ⟨s, d⟩ ⟨s', d'⟩ h
  simp only [toHit, ScoredDoc.mk.injEq] at h
  exact Prod.ext h.2 h.1

theorem sortHits_map_toHit (l : List Entry) :
    sortHits (l.map toHit) = (l.insertionSort rankLe).map toHit :=
  (List.map_insertionSort _ _ toHit l fun _ _ _ _ => Iff.rfl).symm

/-- **The queue drains** to the best `k` of what was offered. -/
theorem drainSorted_queueOf (k : Nat) (l : List Entry) :
    drainSorted (queueOf k l) = (bestK rankLe k l).map toHit := by
  have hsort : (bestK rankLe k l).reverse.insertionSort rankLe = bestK rankLe k l :=
    insertionSort_eq_of_perm (List.reverse_perm _) (bestK_pairwise k l)
  calc drainSorted (queueOf k l)
      = sortHits ((bestK rankLe k l).reverse.map toHit) := rfl
    _ = (bestK rankLe k l).map toHit := by rw [sortHits_map_toHit, hsort]

/-! ## The exhaustive path's map -/

/-- The score of a document: the sum over the postings that carry it. -/
def postingScore (ps : List TermPosting) (d : Nat) : ℚ :=
  ((ps.filter fun p => p.docid = d).map TermPosting.score).sum

/-- The score of a document over all cursors. -/
def fullScore (cs : List TermCursor) (d : Nat) : ℚ :=
  (cs.map fun c => postingScore c.postings d).sum

/-- Every document of the cursors once, with its score. -/
def scoredDocs (cs : List TermCursor) : List Entry :=
  ((cs.flatMap TermCursor.postings).map TermPosting.docid).dedup.map
    fun d => (fullScore cs d, d)

theorem postingScore_append (ps qs : List TermPosting) (d : Nat) :
    postingScore (ps ++ qs) d = postingScore ps d + postingScore qs d := by
  simp [postingScore]

theorem postingScore_flatMap (cs : List TermCursor) (d : Nat) :
    postingScore (cs.flatMap TermCursor.postings) d = fullScore cs d := by
  induction cs with
  | nil => rfl
  | cons c cs ih =>
      rw [List.flatMap_cons, postingScore_append, ih]
      rfl

/-- A document no posting carries scores zero. -/
theorem postingScore_eq_zero {ps : List TermPosting} {d : Nat} (h : ∀ p ∈ ps, p.docid ≠ d) :
    postingScore ps d = 0 := by
  have hnil : ps.filter (fun p => p.docid = d) = [] :=
    List.filter_eq_nil_iff.mpr fun p hp => by simpa using h p hp
  rw [postingScore, hnil]
  rfl

/-- Among strictly ascending postings one posting makes up the score. -/
theorem postingScore_of_mem {ps : List TermPosting}
    (hs : ps.Pairwise fun p q => p.docid < q.docid) {p : TermPosting} (hp : p ∈ ps) :
    postingScore ps p.docid = p.score := by
  obtain ⟨pre, post, rfl⟩ := List.append_of_mem hp
  obtain ⟨_, hpost, hcross⟩ := List.pairwise_append.mp hs
  have hpre0 : postingScore pre p.docid = 0 :=
    postingScore_eq_zero fun q hq => (hcross q hq p (by simp)).ne
  have hpost0 : postingScore post p.docid = 0 :=
    postingScore_eq_zero fun q hq => ((List.pairwise_cons.mp hpost).1 q hq).ne'
  have hcons : postingScore (p :: post) p.docid = p.score + postingScore post p.docid := by
    simp [postingScore]
  rw [postingScore_append, hpre0, hcons, hpost0]
  simp

/-- A scored document is one of some term, with the sum of its scores. -/
theorem mem_scoredDocs {cs : List TermCursor} {e : Entry} :
    e ∈ scoredDocs cs ↔
      (∃ c ∈ cs, ∃ p ∈ c.postings, p.docid = e.2) ∧ e.1 = fullScore cs e.2 := by
  obtain ⟨s, d⟩ := e
  simp only [scoredDocs, List.mem_map, List.mem_dedup, List.mem_flatMap, Prod.mk.injEq]
  constructor
  · rintro ⟨d', ⟨p, ⟨c, hc, hp⟩, rfl⟩, hs, rfl⟩
    exact ⟨⟨c, hc, p, hp, rfl⟩, hs.symm⟩
  · rintro ⟨⟨c, hc, p, hp, rfl⟩, hs⟩
    exact ⟨p.docid, ⟨p, ⟨c, hc, hp⟩, rfl⟩, hs.symm, rfl⟩

theorem nodup_scoredDocs (cs : List TermCursor) : (scoredDocs cs).Nodup := by
  refine (List.nodup_dedup _).map ?_
  intro d d' h
  exact (Prod.mk.inj h).2

/-- One addition to the map: keys stay distinct and grow by the posting's
docid, and every value changes by what the posting adds to its key. -/
private theorem addScore_spec (m : List (Nat × ℚ)) (p : TermPosting)
    (hm : (m.map Prod.fst).Nodup) :
    ((addScore m p).map Prod.fst).Nodup ∧
      (∀ d, d ∈ (addScore m p).map Prod.fst ↔ d ∈ m.map Prod.fst ∨ d = p.docid) ∧
      ∀ d s, (d, s) ∈ addScore m p →
        (d, s - postingScore [p] d) ∈ m ∨ (d ∉ m.map Prod.fst ∧ s = postingScore [p] d) := by
  induction m with
  | nil =>
      refine ⟨by simp [addScore], by simp [addScore], ?_⟩
      intro d s h
      simp only [addScore, List.mem_singleton, Prod.mk.injEq] at h
      obtain ⟨rfl, rfl⟩ := h
      exact Or.inr ⟨by simp, by simp [postingScore]⟩
  | cons e m ih =>
      obtain ⟨d0, s0⟩ := e
      simp only [List.map_cons, List.nodup_cons] at hm
      obtain ⟨ihNodup, ihKeys, ihVal⟩ := ih hm.2
      by_cases hd : d0 = p.docid
      · have hadd : addScore ((d0, s0) :: m) p = (d0, s0 + p.score) :: m := by
          rw [addScore, if_pos hd]
        rw [hadd]
        refine ⟨by simpa using hm, ?_, ?_⟩
        · intro d
          simp only [List.map_cons, List.mem_cons]
          constructor
          · exact fun h => Or.inl h
          · rintro (h | rfl)
            · exact h
            · exact Or.inl hd.symm
        · intro d s h
          left
          rcases List.mem_cons.mp h with h | h
          · obtain ⟨rfl, rfl⟩ := Prod.mk.inj h
            simp [postingScore, hd]
          · have hne : d ≠ p.docid := by
              rintro rfl
              exact hm.1 (List.mem_map.mpr ⟨_, h, hd.symm⟩)
            rw [postingScore_eq_zero (by simpa using hne.symm), sub_zero]
            exact List.mem_cons_of_mem _ h
      · have hadd : addScore ((d0, s0) :: m) p = (d0, s0) :: addScore m p := by
          rw [addScore, if_neg hd]
        rw [hadd]
        refine ⟨?_, ?_, ?_⟩
        · simp only [List.map_cons, List.nodup_cons]
          refine ⟨?_, ihNodup⟩
          rw [ihKeys]
          rintro (h | h)
          · exact hm.1 h
          · exact hd h
        · intro d
          simp only [List.map_cons, List.mem_cons, ihKeys]
          tauto
        · intro d s h
          rcases List.mem_cons.mp h with heq | hin
          · obtain ⟨rfl, rfl⟩ := Prod.mk.inj heq
            left
            rw [postingScore_eq_zero (by simpa using fun h => hd h.symm), sub_zero]
            simp
          · rcases ihVal d s hin with hmem | ⟨hnot, hs⟩
            · exact Or.inl (List.mem_cons_of_mem _ hmem)
            · by_cases hdd : d = d0
              · subst hdd
                exfalso
                rcases (ihKeys d).mp (List.mem_map_of_mem (f := Prod.fst) hin) with h' | h'
                · exact hnot h'
                · exact hd h'
              · refine Or.inr ⟨?_, hs⟩
                simp only [List.map_cons, List.mem_cons, not_or]
                exact ⟨hdd, hnot⟩

/-- The map after any postings holds their documents with their scores. -/
private theorem foldl_addScore_spec (ps : List TermPosting) :
    ((ps.foldl addScore []).map Prod.fst).Nodup ∧
      (∀ d, d ∈ (ps.foldl addScore []).map Prod.fst ↔ d ∈ ps.map TermPosting.docid) ∧
      ∀ d s, (d, s) ∈ ps.foldl addScore [] → s = postingScore ps d := by
  induction ps using List.reverseRecOn with
  | nil => simp
  | append_singleton ps p ih =>
      obtain ⟨ihNodup, ihKeys, ihVal⟩ := ih
      rw [List.foldl_append, List.foldl_cons, List.foldl_nil]
      obtain ⟨hNodup, hKeys, hVal⟩ := addScore_spec (ps.foldl addScore []) p ihNodup
      refine ⟨hNodup, ?_, ?_⟩
      · intro d
        rw [hKeys, ihKeys]
        simp
      · intro d s h
        rw [postingScore_append]
        rcases hVal d s h with hmem | ⟨hnot, hs⟩
        · have := ihVal _ _ hmem
          linarith
        · have hzero : postingScore ps d = 0 := by
            refine postingScore_eq_zero fun q hq hqd => hnot ?_
            rw [ihKeys]
            exact List.mem_map.mpr ⟨q, hq, hqd⟩
          rw [hzero, hs, zero_add]

theorem exhaustiveScores_perm (cs : List TermCursor) :
    ((exhaustiveScores cs).map fun e => (e.2, e.1)).Perm (scoredDocs cs) := by
  obtain ⟨hNodup, hKeys, hVal⟩ := foldl_addScore_spec (cs.flatMap TermCursor.postings)
  have hval : ∀ e ∈ exhaustiveScores cs, e.2 = fullScore cs e.1 := by
    intro e he
    rw [← postingScore_flatMap]
    exact hVal e.1 e.2 he
  have heq : ((exhaustiveScores cs).map fun e => (e.2, e.1)) =
      ((exhaustiveScores cs).map Prod.fst).map fun d => (fullScore cs d, d) := by
    rw [List.map_map]
    refine List.map_congr_left fun e he => ?_
    simp [hval e he]
  rw [heq, scoredDocs]
  refine List.Perm.map _ ((List.perm_ext_iff_of_nodup hNodup (List.nodup_dedup _)).mpr ?_)
  intro d
  rw [List.mem_dedup]
  exact hKeys d

/-- **The exhaustive answer** is the best `k` of the scored documents. -/
theorem scoringQueryExhaustive_eq {k : Nat} (hk : 0 < k) (cs : List TermCursor) :
    scoringQueryExhaustive k cs = (bestK rankLe k (scoredDocs cs)).map toHit := by
  have hmap : ((exhaustiveScores cs).map fun e => ({ docid := e.1, score := e.2 } : ScoredDoc)) =
      ((exhaustiveScores cs).map fun e => (e.2, e.1)).map toHit := by
    simp [toHit, Function.comp_def]
  rw [scoringQueryExhaustive, if_neg (by omega), hmap, sortHits_map_toHit, ← List.map_take]
  exact congrArg (List.map toHit) (bestK_perm (exhaustiveScores_perm cs))

end Snii.Query.ScoringQuery
