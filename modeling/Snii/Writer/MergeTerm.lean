import Snii.Writer.RunRecords

/-!
# Emitting one merged term

`MergeRuns` builds a term from the runs parked at it.  Whichever way the
positions travel (copied with the docids, copied in a second pass, or pulled
through the pump in pieces of any size) the callback sees the runs' groups
appended in run order, a shared boundary document folded into one
(`emitTerm_lays`).
-/

namespace Snii.Writer.SpillRunCodec

open Snii.Lib.ByteReader Snii.Lib.Grouping Snii.Common Snii.Encoding.Varint
  Snii.Writer.SpimiTermBuffer

/-! ## Appending the slices -/

/-- Docids and freqs of the merged postings lay out a group list. -/
structure LaysDocs (tp : TermPostings) (g : List (Nat × List Nat)) : Prop where
  docids : tp.docids = g.map Prod.fst
  freqs : tp.freqs = freqsOf g

theorem posOf_catGroups (hasPositions : Bool) (g h : List (Nat × List Nat)) :
    posOf hasPositions (catGroups g h) = posOf hasPositions g ++ posOf hasPositions h := by
  cases hasPositions with
  | false => simp [posOf]
  | true =>
      simp only [posOf, if_true, flatMap_snd_eq, ungroup_catGroups, List.map_append]

/-- The arrays both `Concat` and `ConcatDocsFreqs` build. -/
private theorem boundary_lays (g h : List (Nat × List Nat)) (first : Nat × List Nat) :
    ((g.map Prod.fst).getLast? = some first.1 →
      (catGroups g (first :: h)).map Prod.fst = g.map Prod.fst ++ h.map Prod.fst ∧
      freqsOf (catGroups g (first :: h)) = (freqsOf g).dropLast ++
        [((freqsOf g).getLast?.getD 0 + first.2.length % 2 ^ 32) % 2 ^ 32] ++ freqsOf h) ∧
    ((g.map Prod.fst).getLast? ≠ some first.1 → catGroups g (first :: h) = g ++ first :: h) := by
  rcases List.eq_nil_or_concat g with rfl | ⟨g, last, rfl⟩
  · simp [catGroups_nil_left]
  · simp only [List.concat_eq_append]
    rw [catGroups_concat]
    constructor
    · intro hlast
      have heq : last.1 = first.1 := by simpa using hlast
      rw [if_pos heq]
      simp [freqsOf, Nat.add_mod]
    · intro hlast
      have hne : ¬ last.1 = first.1 := fun heq => hlast (by simp [heq])
      rw [if_neg hne, List.append_assoc]
      rfl

theorem concatDocsFreqs_lays {dst : TermPostings} {src : RunReader} {g h : List (Nat × List Nat)}
    (hdst : LaysDocs dst g) (hdocs : src.docids = h.map Prod.fst)
    (hfreqs : src.freqs = freqsOf h) :
    LaysDocs (concatDocsFreqs dst src) (catGroups g h) ∧
      concatDocsFreqs dst src = { dst with
        docids := (catGroups g h).map Prod.fst
        freqs := freqsOf (catGroups g h) } := by
  suffices heq : concatDocsFreqs dst src = { dst with
      docids := (catGroups g h).map Prod.fst
      freqs := freqsOf (catGroups g h) } from
    ⟨by rw [heq]; exact ⟨rfl, rfl⟩, heq⟩
  cases h with
  | nil =>
      simp only [concatDocsFreqs, hdocs, catGroups_nil_right, List.map_nil, ← hdst.docids,
        ← hdst.freqs]
  | cons first h =>
      obtain ⟨hsame, hdiff⟩ := boundary_lays g h first
      simp only [concatDocsFreqs, hdocs, hfreqs, List.map_cons, freqsOf_cons]
      by_cases hlast : dst.docids.getLast? = some first.1
      · obtain ⟨h1, h2⟩ := hsame (by rw [← hdst.docids]; exact hlast)
        rw [if_pos hlast, h1, h2, hdst.docids, hdst.freqs]
      · rw [if_neg hlast, hdiff (by rw [← hdst.docids]; exact hlast), hdst.docids, hdst.freqs]
        simp [freqsOf_append, freqsOf_cons]

theorem concat_lays {dst : TermPostings} {src : RunReader} {g h : List (Nat × List Nat)}
    {hasPositions : Bool} (hdst : LaysDocs dst g) (hpos : dst.positionsFlat = posOf hasPositions g)
    (hdocs : src.docids = h.map Prod.fst) (hfreqs : src.freqs = freqsOf h)
    (hsrc : hasPositions = true → src.positionsFlat = posOf hasPositions h) :
    concat dst src hasPositions = .ok { dst with
      docids := (catGroups g h).map Prod.fst
      freqs := freqsOf (catGroups g h)
      positionsFlat := posOf hasPositions (catGroups g h) } := by
  cases h with
  | nil =>
      simp only [concat, hdocs, catGroups_nil_right, List.map_nil, ← hdst.docids, ← hdst.freqs,
        ← hpos]
  | cons first h =>
      obtain ⟨hsame, hdiff⟩ := boundary_lays g h first
      have hcat := posOf_catGroups hasPositions g (first :: h)
      have hsum : (if hasPositions then dst.positionsFlat ++ src.positionsFlat
          else dst.positionsFlat) = posOf hasPositions (catGroups g (first :: h)) := by
        rw [hcat, hpos]
        cases hp : hasPositions with
        | false => simp [posOf]
        | true => rw [hp] at hsrc; simp [hsrc rfl]
      simp only [concat, hdocs, hfreqs, List.map_cons, freqsOf_cons]
      by_cases hlast : dst.docids.getLast? = some first.1
      · obtain ⟨h1, h2⟩ := hsame (by rw [← hdst.docids]; exact hlast)
        have hbound : ¬ (hasPositions = true ∧
            first.2.length % 2 ^ 32 > src.positionsFlat.length) := by
          rintro ⟨hp, hlong⟩
          rw [hsrc hp, posOf, if_pos hp, List.flatMap_cons, List.length_append] at hlong
          have := Nat.mod_le first.2.length (2 ^ 32)
          omega
        rw [if_pos hlast, if_neg hbound]
        simp only [List.append_assoc, List.take_append_drop] at h2 ⊢
        rw [hsum, h1, h2, hdst.docids, hdst.freqs]
      · rw [if_neg hlast, hsum, hdiff (by rw [← hdst.docids]; exact hlast), hdst.docids,
          hdst.freqs]
        simp [freqsOf_append, freqsOf_cons]

/-! ## The set of readers -/

/-- A reader at its first record, with any part of its positions read. -/
def Behind (hasPositions : Bool) (r : RunReader) : List Rec → Prop
  | [] => r.exhausted = true
  | x :: recs => ∃ left, Loaded hasPositions r x left recs ∧ (hasPositions = false → left = [])

theorem AtRecords.behind {hasPositions : Bool} {r : RunReader} {recs : List Rec}
    (h : AtRecords hasPositions r recs) : Behind hasPositions r recs := by
  cases recs with
  | nil => exact h
  | cons x recs => exact ⟨_, h, fun hfalse => by simp [posOf, hfalse]⟩

/-- The readers of the runs: those in `used` may have read positions, the others
stand at the start of a record. -/
structure Readers (hasPositions : Bool) (sts : Nat → List Rec) (n : Nat) (used : List Nat)
    (rs : List RunReader) : Prop where
  length : rs.length = n
  behind : ∀ i r, rs[i]? = some r → Behind hasPositions r (sts i)
  fresh : ∀ i r, rs[i]? = some r → i ∉ used → AtRecords hasPositions r (sts i)

/-- The groups of the record a run stands at. -/
def headGroups (sts : Nat → List Rec) (i : Nat) : List (Nat × List Nat) :=
  ((sts i).head?.map Prod.snd).getD []

/-- Every document of a record the listed runs stand at has tokens, and no more than its
counter holds. -/
def HeadsFit (sts : Nat → List Rec) (matching : List Nat) : Prop :=
  ∀ i ∈ matching, ∀ e ∈ headGroups sts i, e.2 ≠ [] ∧ e.2.length < 2 ^ 32

theorem HeadsFit.tail {sts : Nat → List Rec} {i : Nat} {matching : List Nat}
    (h : HeadsFit sts (i :: matching)) : HeadsFit sts matching :=
  fun j hj => h j (List.mem_cons_of_mem i hj)

theorem HeadsFit.freqs {sts : Nat → List Rec} {i : Nat} {matching : List Nat}
    (h : HeadsFit sts (i :: matching)) :
    (headGroups sts i).map (fun e => e.2.length) = freqsOf (headGroups sts i) :=
  (freqsOf_of_lt fun e he => (h i List.mem_cons_self e he).2).symm

/-- The listed readers stand at a record whose positions are all unread. -/
def FreshAll (hasPositions : Bool) (sts : Nat → List Rec) (rs : List RunReader)
    (matching : List Nat) : Prop :=
  ∀ i ∈ matching, ∃ r x recs, rs[i]? = some r ∧ sts i = x :: recs ∧
    Loaded hasPositions r x (posOf hasPositions x.2) recs

theorem onReader_ok {α : Type} {i : Nat} {p : RunM RunReader α} {rs : List RunReader}
    {r r' : RunReader} {a : α} (hr : rs[i]? = some r) (hp : p r = .ok a r') :
    onReader i p rs = .ok a (rs.set i r') := by
  simp only [onReader, hr, hp]

theorem onReader_get {i : Nat} {rs : List RunReader} {r : RunReader} (hr : rs[i]? = some r) :
    onReader i get rs = .ok r rs := by
  have hset : rs.set i r = rs := by
    obtain ⟨hi, rfl⟩ := List.getElem?_eq_some_iff.mp hr
    exact List.set_getElem_self hi
  have hget : (get : RunM RunReader RunReader) r = .ok r r := rfl
  have := onReader_ok hr hget
  rwa [hset] at this

theorem Readers.set {hasPositions : Bool} {sts : Nat → List Rec} {n : Nat} {used : List Nat}
    {rs : List RunReader} (h : Readers hasPositions sts n used rs) {i : Nat} {r : RunReader}
    (hi : i ∈ used) (hr : Behind hasPositions r (sts i)) :
    Readers hasPositions sts n used (rs.set i r) := by
  refine ⟨by rw [List.length_set]; exact h.length, ?_, ?_⟩
  · intro j r' hj
    rw [List.getElem?_set] at hj
    split at hj
    · rename_i heq
      subst heq
      split at hj
      · obtain rfl := Option.some.inj hj
        exact hr
      · exact absurd hj (by simp)
    · exact h.behind j r' hj
  · intro j r' hj hjn
    have hne : i ≠ j := fun heq => hjn (heq ▸ hi)
    rw [List.getElem?_set_ne hne] at hj
    exact h.fresh j r' hj hjn

theorem FreshAll.set {hasPositions : Bool} {sts : Nat → List Rec} {rs : List RunReader}
    {matching : List Nat} (h : FreshAll hasPositions sts rs matching) {i : Nat} {r : RunReader}
    (hi : i ∉ matching) : FreshAll hasPositions sts (rs.set i r) matching := by
  intro j hj
  obtain ⟨r', x, recs, hr', hsts, hload⟩ := h j hj
  have hne : i ≠ j := fun heq => hi (heq ▸ hj)
  exact ⟨r', x, recs, by rw [List.getElem?_set_ne hne]; exact hr', hsts, hload⟩

/-! ## Copying positions with the docids -/

/-- The tokens of the matching runs, and those already merged. -/
def tokenTotal (sts : Nat → List Rec) (g : List (Nat × List Nat)) (matching : List Nat) : Nat :=
  (ungroup g).length + (matching.map fun i => (ungroup (headGroups sts i)).length).sum

/-- What the matching runs add to the groups merged so far. -/
def mergedGroups (sts : Nat → List Rec) (g : List (Nat × List Nat)) (matching : List Nat) :
    List (Nat × List Nat) :=
  matching.foldl (fun g i => catGroups g (headGroups sts i)) g

/-- Materialising the next matching run, when positions are kept at all. -/
private theorem materialize_step {hasPositions : Bool} {sts : Nat → List Rec} {n : Nat}
    {used matching : List Nat} {rs : List RunReader} {i : Nat}
    (hrs : Readers hasPositions sts n used rs)
    (hfresh : FreshAll hasPositions sts rs (i :: matching))
    (hheads : HeadsFit sts (i :: matching)) (hused : ∀ j ∈ i :: matching, j ∈ used)
    (hi : i ∉ matching) :
    ∃ rs' r, loadPositions false hasPositions i rs = .ok () rs' ∧
      rs'[i]? = some r ∧ r.docids = (headGroups sts i).map Prod.fst ∧
      r.freqs = freqsOf (headGroups sts i) ∧
      (hasPositions = true → r.positionsFlat = posOf hasPositions (headGroups sts i)) ∧
      Readers hasPositions sts n used rs' ∧ FreshAll hasPositions sts rs' matching := by
  obtain ⟨r, x, recs, hr, hsts, hload⟩ := hfresh i (by simp)
  have hilt : i < rs.length := (List.getElem?_eq_some_iff.mp hr).1
  have hhead : headGroups sts i = x.2 := by simp [headGroups, hsts]
  rw [← hheads.freqs, hhead]
  cases hp : hasPositions with
  | false =>
      subst hp
      exact ⟨rs, r, rfl, hr, hload.docids, hload.freqs, by simp, hrs,
        fun j hj => hfresh j (by simp [hj])⟩
  | true =>
      subst hp
      obtain ⟨r', hmat, hflat, hload'⟩ :=
        RunReader.materializePositions_loaded hload (by simp)
      refine ⟨rs.set i r', r', ?_, List.getElem?_set_self hilt, hload'.docids, hload'.freqs,
        fun _ => hflat, hrs.set (hused i (by simp)) ?_, ?_⟩
      · simp only [loadPositions, and_self, if_true]
        exact onReader_ok hr hmat
      · rw [hsts]
        exact ⟨[], hload', fun _ => rfl⟩
      · exact FreshAll.set (fun j hj => hfresh j (by simp [hj])) hi

theorem coalesce_copy {hasPositions : Bool} {sts : Nat → List Rec} {n : Nat} {used : List Nat}
    (matching : List Nat) {rs : List RunReader} {merged : TermPostings}
    {g : List (Nat × List Nat)} (hrs : Readers hasPositions sts n used rs)
    (hfresh : FreshAll hasPositions sts rs matching) (hused : ∀ i ∈ matching, i ∈ used)
    (hnodup : matching.Nodup) (hdocs : LaysDocs merged g)
    (hpos : merged.positionsFlat = posOf hasPositions g) (hheads : HeadsFit sts matching) :
    ∃ rs', coalesce false hasPositions matching merged rs = .ok { merged with
        docids := (mergedGroups sts g matching).map Prod.fst
        freqs := freqsOf (mergedGroups sts g matching)
        positionsFlat := posOf hasPositions (mergedGroups sts g matching) } rs' ∧
      Readers hasPositions sts n used rs' := by
  induction matching generalizing rs merged g with
  | nil =>
      refine ⟨rs, ?_, hrs⟩
      rw [coalesce]
      simp only [mergedGroups, List.foldl_nil, ← hdocs.docids, ← hdocs.freqs, ← hpos]
      rfl
  | cons i matching ih =>
      obtain ⟨hi, hnd⟩ := List.nodup_cons.mp hnodup
      obtain ⟨rs1, r1, hmat, hr1, hdocs1, hfreqs1, hpos1, hrs1, hfresh1⟩ :=
        materialize_step hrs hfresh hheads hused hi
      have hcat := concat_lays hdocs hpos hdocs1 hfreqs1 hpos1
      rw [coalesce, bind_ok hmat, bind_ok (onReader_get hr1)]
      simp only [Bool.false_eq_true, if_false, hcat]
      exact @ih rs1 { merged with
        docids := (catGroups g (headGroups sts i)).map Prod.fst
        freqs := freqsOf (catGroups g (headGroups sts i))
        positionsFlat := posOf hasPositions (catGroups g (headGroups sts i)) }
        (catGroups g (headGroups sts i)) hrs1 hfresh1
        (fun j hj => hused j (by simp [hj])) hnd ⟨rfl, rfl⟩ rfl hheads.tail

/-! ## Leaving positions with the readers -/

theorem coalesce_stream {hasPositions : Bool} {sts : Nat → List Rec} {rs : List RunReader}
    (matching : List Nat) {merged : TermPostings} {g : List (Nat × List Nat)}
    (hfresh : FreshAll hasPositions sts rs matching) (hdocs : LaysDocs merged g)
    (hheads : HeadsFit sts matching) :
    coalesce true hasPositions matching merged rs = .ok { merged with
      docids := (mergedGroups sts g matching).map Prod.fst
      freqs := freqsOf (mergedGroups sts g matching) } rs := by
  induction matching generalizing merged g with
  | nil =>
      rw [coalesce]
      simp only [mergedGroups, List.foldl_nil, ← hdocs.docids, ← hdocs.freqs]
      rfl
  | cons i matching ih =>
      obtain ⟨r, x, recs, hr, hsts, hload⟩ := hfresh i (by simp)
      have hhead : headGroups sts i = x.2 := by simp [headGroups, hsts]
      have hload0 : loadPositions true hasPositions i rs = .ok () rs := rfl
      have hsrc : r.docids = (headGroups sts i).map Prod.fst := by rw [hload.docids, hhead]
      obtain ⟨hlays, heq⟩ := concatDocsFreqs_lays hdocs hsrc
        (by rw [← hheads.freqs, hload.freqs, hhead])
      rw [coalesce, bind_ok hload0, bind_ok (onReader_get hr), if_pos rfl,
        ih (fun j hj => hfresh j (by simp [hj])) hlays hheads.tail, heq]
      rfl

/-- The positions the matching runs hold, in run order. -/
def pendingPositions (hasPositions : Bool) (sts : Nat → List Rec) (matching : List Nat) :
    List Nat :=
  matching.flatMap fun i => posOf hasPositions (headGroups sts i)

theorem posOf_mergedGroups (hasPositions : Bool) (sts : Nat → List Rec) (matching : List Nat)
    (g : List (Nat × List Nat)) :
    posOf hasPositions (mergedGroups sts g matching) =
      posOf hasPositions g ++ pendingPositions hasPositions sts matching := by
  induction matching generalizing g with
  | nil => simp [mergedGroups, pendingPositions]
  | cons i matching ih =>
      have := ih (catGroups g (headGroups sts i))
      rw [posOf_catGroups] at this
      rw [pendingPositions, List.flatMap_cons, ← List.append_assoc]
      exact this

theorem length_pendingPositions_le (hasPositions : Bool) (sts : Nat → List Rec)
    (matching : List Nat) :
    (pendingPositions hasPositions sts matching).length ≤ tokenTotal sts [] matching := by
  have hpos : ∀ g : List (Nat × List Nat), (posOf hasPositions g).length ≤ (ungroup g).length := by
    intro g
    rw [posOf]
    split
    · simp [ungroup, List.length_flatMap]
    · exact Nat.zero_le _
  rw [pendingPositions, tokenTotal, List.length_flatMap]
  simp only [ungroup, List.flatMap_nil, List.length_nil, Nat.zero_add]
  exact List.sum_le_sum fun i _ => hpos (headGroups sts i)

/-- The second pass collects every position of the matching runs. -/
theorem materializeAll_spec {hasPositions : Bool} {sts : Nat → List Rec} {n : Nat}
    {used : List Nat} (matching : List Nat) {rs : List RunReader} {merged : TermPostings}
    (hrs : Readers hasPositions sts n used rs)
    (hfresh : FreshAll hasPositions sts rs matching) (hused : ∀ i ∈ matching, i ∈ used)
    (hnodup : matching.Nodup) :
    ∃ rs', materializeAll matching merged rs = .ok { merged with
        positionsFlat := merged.positionsFlat ++ pendingPositions hasPositions sts matching } rs' ∧
      Readers hasPositions sts n used rs' := by
  induction matching generalizing rs merged with
  | nil =>
      refine ⟨rs, ?_, hrs⟩
      rw [materializeAll]
      simp only [pendingPositions, List.flatMap_nil, List.append_nil]
      rfl
  | cons i matching ih =>
      obtain ⟨hi, hnd⟩ := List.nodup_cons.mp hnodup
      obtain ⟨r, x, recs, hr, hsts, hload⟩ := hfresh i (by simp)
      have hilt : i < rs.length := (List.getElem?_eq_some_iff.mp hr).1
      have hhead : headGroups sts i = x.2 := by simp [headGroups, hsts]
      obtain ⟨r', hmat, hflat, hload'⟩ :=
        RunReader.materializePositions_loaded hload (fun hfalse => by simp [posOf, hfalse])
      have hrs' := hrs.set (hused i (by simp))
        (show Behind hasPositions r' (sts i) by rw [hsts]; exact ⟨[], hload', fun _ => rfl⟩)
      have hfresh' : FreshAll hasPositions sts (rs.set i r') matching :=
        FreshAll.set (fun j hj => hfresh j (by simp [hj])) hi
      obtain ⟨rs', heq, hdone⟩ := @ih _ { merged with
        positionsFlat := merged.positionsFlat ++ r'.positionsFlat } hrs' hfresh'
        (fun j hj => hused j (by simp [hj])) hnd
      have hpos : pendingPositions hasPositions sts (i :: matching) =
          r'.positionsFlat ++ pendingPositions hasPositions sts matching := by
        rw [hflat, ← hhead]
        rfl
      refine ⟨rs', ?_, hdone⟩
      rw [materializeAll, bind_ok (onReader_ok hr hmat),
        bind_ok (onReader_get (List.getElem?_set_self hilt)), heq, hpos, ← List.append_assoc]

/-! ## The pump -/

/-- The pump's state before the positions `left`: the run it stands at has some
unread, the later ones all of them. -/
def PumpAt (hasPositions : Bool) (sts : Nat → List Rec) (matching : List Nat) (st : PumpState)
    (rest : List Nat) (here left : List Nat) : Prop :=
  matching.drop st.cursor = rest ∧ st.status = none ∧
    match rest with
    | [] => here = [] ∧ left = []
    | i :: later => i ∉ later ∧ (∃ r x recs, st.readers[i]? = some r ∧ sts i = x :: recs ∧
          Loaded hasPositions r x here recs) ∧
        FreshAll hasPositions sts st.readers later ∧
        left = here ++ pendingPositions hasPositions sts later

/-- The state after the run in front is used up. -/
private theorem PumpAt.next {hasPositions : Bool} {sts : Nat → List Rec} {matching : List Nat}
    {st : PumpState} {i : Nat} {later left : List Nat}
    (h : PumpAt hasPositions sts matching st (i :: later) [] left) (hnodup : later.Nodup) :
    ∃ here, PumpAt hasPositions sts matching { st with cursor := st.cursor + 1 } later here left := by
  obtain ⟨hdrop, hok, _, _, hfresh, hleft⟩ := h
  have hdrop' : matching.drop (st.cursor + 1) = later := by
    rw [← List.drop_drop, hdrop]
    rfl
  cases later with
  | nil => exact ⟨[], hdrop', hok, rfl, by simpa [pendingPositions] using hleft⟩
  | cons j later =>
      obtain ⟨hj, _⟩ := List.nodup_cons.mp hnodup
      obtain ⟨r, x, recs, hr, hsts, hload⟩ := hfresh j (by simp)
      refine ⟨posOf hasPositions x.2, hdrop', hok, hj, ⟨r, x, recs, hr, hsts, hload⟩,
        fun k hk => hfresh k (by simp [hk]), ?_⟩
      rw [hleft, List.nil_append, pendingPositions, List.flatMap_cons]
      simp [headGroups, hsts, pendingPositions]

private theorem pumpPull_zero (matching : List Nat) (fuel : Nat) (st : PumpState) :
    pumpPull matching fuel 0 st = ([], st) := by
  cases fuel <;> simp [pumpPull]

/-- **One pull** returns the next positions, whichever runs they are in. -/
theorem pumpPull_spec {hasPositions : Bool} {sts : Nat → List Rec} {n : Nat} {used : List Nat}
    {matching : List Nat} (hused : ∀ i ∈ matching, i ∈ used) (hnodup : matching.Nodup)
    (fuel : Nat) {m : Nat} {st : PumpState} {rest here left : List Nat}
    (hrs : Readers hasPositions sts n used st.readers)
    (h : PumpAt hasPositions sts matching st rest here left) (hm : m ≤ left.length)
    (hpos : hasPositions = true)
    (hfuel : 2 * rest.length ≤ fuel + if here = [] then 1 else 0) :
    (pumpPull matching fuel m st).1 = left.take m ∧
      Readers hasPositions sts n used (pumpPull matching fuel m st).2.readers ∧
      ∃ rest' here', PumpAt hasPositions sts matching (pumpPull matching fuel m st).2 rest' here'
        (left.drop m) := by
  induction fuel generalizing m st rest here left with
  | zero =>
      have hrest : rest = [] := by
        refine List.length_eq_zero_iff.mp ?_
        split at hfuel <;> omega
      subst hrest
      have hnil : left = [] := h.2.2.2
      subst hnil
      obtain rfl : m = 0 := by simpa using hm
      exact ⟨rfl, hrs, [], here, h⟩
  | succ fuel ih =>
      rw [pumpPull]
      by_cases hzero : m = 0
      · subst hzero
        rw [if_pos rfl]
        exact ⟨by simp, hrs, rest, here, by simpa using h⟩
      · rw [if_neg hzero]
        cases rest with
        | nil =>
            have hnil : left = [] := h.2.2.2
            subst hnil
            exact absurd hm (by simpa using hzero)
        | cons i later =>
            obtain ⟨hdrop, hok, hi, ⟨r, x, recs, hr, hsts, hload⟩, hfresh, hleft⟩ := id h
            have hcur : matching[st.cursor]? = some i := by
              rw [← List.head?_drop, hdrop]
              rfl
            have hmem : i ∈ matching := List.mem_of_getElem? hcur
            have hlater : later.Nodup := by
              have := hnodup.sublist (List.drop_sublist st.cursor matching)
              rw [hdrop] at this
              exact (List.nodup_cons.mp this).2
            have hrem : (st.readers[i]?.map RunReader.posRemaining).getD 0 = here.length := by
              rw [hr]
              exact hload.remaining
            simp only [hcur, hrem]
            by_cases hhere : here = []
            · subst hhere
              obtain ⟨here', hnext⟩ := PumpAt.next h hlater
              simp only [List.length_nil, if_true]
              refine ih hrs hnext hm ?_
              simp only [List.length_cons, if_true] at hfuel
              omega
            · have hlen : 0 < here.length := List.length_pos_iff.mpr hhere
              rw [if_neg (by omega)]
              obtain ⟨r', hstream, hload'⟩ :=
                RunReader.streamPositions_loaded hload (Nat.min_le_right m here.length)
              have hilt : i < st.readers.length := (List.getElem?_eq_some_iff.mp hr).1
              simp only [onReader_ok hr hstream]
              have hrs' := hrs.set (r := r') (hused i hmem)
                (by rw [hsts]; exact ⟨_, hload', fun hfalse => by simp [hpos] at hfalse⟩)
              have hnext : PumpAt hasPositions sts matching
                  { st with readers := st.readers.set i r' } (i :: later)
                  (here.drop (min m here.length)) (left.drop (min m here.length)) := by
                refine ⟨hdrop, hok, hi, ⟨r', x, recs, List.getElem?_set_self hilt, hsts, hload'⟩,
                  hfresh.set hi, ?_⟩
                rw [hleft, List.drop_append_of_le_length (Nat.min_le_right _ _)]
              have hblock : here.take (min m here.length) = left.take (min m here.length) := by
                rw [hleft, List.take_append_of_le_length (Nat.min_le_right _ _)]
              have hsplit : m = min m here.length + (m - min m here.length) := by omega
              have htake : left.take m = left.take (min m here.length) ++
                  (left.drop (min m here.length)).take (m - min m here.length) := by
                conv_lhs => rw [hsplit]
                exact List.take_add
              have hskip : left.drop m =
                  (left.drop (min m here.length)).drop (m - min m here.length) := by
                rw [List.drop_drop, ← hsplit]
              rw [htake, hskip, hblock]
              by_cases hdone : m - min m here.length = 0
              · rw [hdone, pumpPull_zero]
                exact ⟨by simp, hrs', _, _, hnext⟩
              · have hempty : here.drop (min m here.length) = [] :=
                  List.drop_eq_nil_iff.mpr (by omega)
                obtain ⟨hmore, hrs2, hat⟩ := @ih (m - min m here.length) _ _ _ _ hrs' hnext
                  (by rw [List.length_drop]; omega)
                  (by rw [if_pos hempty]; rw [if_neg hhere] at hfuel; omega)
                exact ⟨by rw [hmore], hrs2, hat⟩

/-- **Any sequence of pulls** returns the positions from the front. -/
theorem pumpPulls_spec {hasPositions : Bool} {sts : Nat → List Rec} {n : Nat} {used : List Nat}
    {matching : List Nat} (hused : ∀ i ∈ matching, i ∈ used) (hnodup : matching.Nodup)
    (sizes : List Nat) {st : PumpState} {rest here left : List Nat}
    (hrs : Readers hasPositions sts n used st.readers)
    (h : PumpAt hasPositions sts matching st rest here left) (hsum : sizes.sum ≤ left.length)
    (hpos : hasPositions = true) :
    (pumpPulls matching sizes st).1 = left.take sizes.sum ∧
      (pumpPulls matching sizes st).2.status = none ∧
      Readers hasPositions sts n used (pumpPulls matching sizes st).2.readers := by
  induction sizes generalizing st rest here left with
  | nil => exact ⟨by simp [pumpPulls], h.2.1, hrs⟩
  | cons m sizes ih =>
      rw [List.sum_cons] at hsum
      have hrest : rest.length ≤ matching.length := by
        rw [← h.1, List.length_drop]
        omega
      have hm : m ≤ left.length := by omega
      obtain ⟨hblock, hrs1, rest', here', h1⟩ := pumpPull_spec hused hnodup
        (2 * matching.length + m + 1) hrs h hm hpos (by omega)
      obtain ⟨hmore, hok, hrs2⟩ := ih hrs1 h1 (by rw [List.length_drop]; omega)
      rw [pumpPulls]
      refine ⟨?_, hok, hrs2⟩
      rw [List.sum_cons, List.take_add, ← hblock, ← hmore]

/-! ## Emission -/

private theorem sum_posCount {hasPositions : Bool} {sts : Nat → List Rec} {rs : List RunReader}
    {matching : List Nat} (hfresh : FreshAll hasPositions sts rs matching) :
    ((matching.filterMap fun i => rs[i]?).map RunReader.posCount).sum =
      (pendingPositions hasPositions sts matching).length := by
  induction matching with
  | nil => rfl
  | cons i matching ih =>
      obtain ⟨r, x, recs, hr, hsts, hload⟩ := hfresh i (by simp)
      have hhead : headGroups sts i = x.2 := by simp [headGroups, hsts]
      rw [pendingPositions, List.flatMap_cons, List.length_append, hhead, ← hload.count,
        List.filterMap_cons_some hr, List.map_cons, List.sum_cons,
        ih fun j hj => hfresh j (by simp [hj])]
      rfl

private theorem sum_docids {hasPositions : Bool} {sts : Nat → List Rec} {rs : List RunReader}
    {matching : List Nat} (hfresh : FreshAll hasPositions sts rs matching) :
    ((matching.filterMap fun i => rs[i]?).map fun r => r.docids.length).sum =
      (matching.map fun i => (headGroups sts i).length).sum := by
  induction matching with
  | nil => rfl
  | cons i matching ih =>
      obtain ⟨r, x, recs, hr, hsts, hload⟩ := hfresh i (by simp)
      have hhead : headGroups sts i = x.2 := by simp [headGroups, hsts]
      have hlen : r.docids.length = (headGroups sts i).length := by
        rw [hload.docids, List.length_map, hhead]
      rw [List.filterMap_cons_some hr, List.map_cons, List.sum_cons, List.map_cons, List.sum_cons,
        hlen, ih fun j hj => hfresh j (by simp [hj])]

/-- Folding a shared document only shortens what is appended. -/
theorem length_mergedGroups_le (sts : Nat → List Rec) (matching : List Nat)
    (g : List (Nat × List Nat)) : (mergedGroups sts g matching).length ≤
      g.length + (matching.map fun i => (headGroups sts i).length).sum := by
  induction matching generalizing g with
  | nil => simp [mergedGroups]
  | cons i matching ih =>
      have hcat := length_catGroups_le g (headGroups sts i)
      have hrest : (mergedGroups sts g (i :: matching)).length ≤
          (catGroups g (headGroups sts i)).length +
            (matching.map fun i => (headGroups sts i).length).sum := ih _
      rw [List.map_cons, List.sum_cons]
      omega

theorem mergedGroups_nonempty {sts : Nat → List Rec} {matching : List Nat}
    {g : List (Nat × List Nat)} (hheads : HeadsFit sts matching) (hg : ∀ e ∈ g, e.2 ≠ []) :
    ∀ e ∈ mergedGroups sts g matching, e.2 ≠ [] := by
  induction matching generalizing g with
  | nil => exact hg
  | cons i matching ih =>
      exact ih hheads.tail
        (catGroups_nonempty hg fun e he => (hheads i List.mem_cons_self e he).1)

/-- A wide merged term streams. -/
private theorem shouldStream_of_wide {hasPositions : Bool} {sts : Nat → List Rec}
    {rs : List RunReader} {matching : List Nat} (hfresh : FreshAll hasPositions sts rs matching)
    (hheads : HeadsFit sts matching) (hpos : hasPositions = true)
    (hwide : kSlimDfThreshold ≤ (mergedGroups sts [] matching).length) :
    shouldStreamPositions ((matching.filterMap fun i => rs[i]?).map fun r => r.docids.length).sum
      ((matching.filterMap fun i => rs[i]?).map RunReader.posCount).sum hasPositions = true := by
  have hdocs := length_mergedGroups_le sts matching []
  have htokens := length_le_of_nonempty
    (@mergedGroups_nonempty sts matching [] hheads fun e he => absurd he List.not_mem_nil)
  have hpending := posOf_mergedGroups hasPositions sts matching []
  rw [posOf, if_pos hpos, posOf, if_pos hpos] at hpending
  have hlen : (pendingPositions hasPositions sts matching).length =
      ((mergedGroups sts [] matching).flatMap Prod.snd).length := by
    rw [hpending]
    rfl
  have hthreshold : 0 < kSlimDfThreshold := by decide
  rw [List.length_nil, Nat.zero_add] at hdocs
  rw [shouldStreamPositions, sum_docids hfresh, sum_posCount hfresh, hpos]
  simp only [Bool.true_and, Bool.and_eq_true, decide_eq_true_eq]
  rw [hpos] at hlen
  omega

/-- A `reserve` that is granted changes nothing. -/
theorem reservePositions_granted {σ : Type} {cfg : MergeConfig} (hroom : cfg.room = none)
    (copied : Bool) (n : Nat) (s : σ) : reservePositions cfg copied n s = .ok () s := by
  rw [reservePositions, hroom]
  simp

/-- **A merged term**: the callback sees the matching runs' groups appended in
run order, however the positions reach it. -/
theorem emitTerm_lays {cfg : MergeConfig} {sts : Nat → List Rec} {n : Nat} {matching : List Nat}
    {rs : List RunReader} (term : Bytes) (hrs : Readers cfg.hasPositions sts n matching rs)
    (hfresh : FreshAll cfg.hasPositions sts rs matching) (hnodup : matching.Nodup)
    (hheads : HeadsFit sts matching) (htotal : tokenTotal sts [] matching < 2 ^ 64)
    (hplan : Restrained cfg.plan) (hroom : cfg.room = none) :
    ∃ e rs', emitTerm cfg term matching rs = .ok (e, none) rs' ∧
      Lays cfg.plan cfg.allowStream e cfg.hasPositions term (mergedGroups sts [] matching) ∧
      Readers cfg.hasPositions sts n matching rs' := by
  have hpending := posOf_mergedGroups cfg.hasPositions sts matching []
  have hcount := sum_posCount hfresh
  rw [show posOf cfg.hasPositions [] = [] by simp [posOf], List.nil_append] at hpending
  have hget : (get : RunM (List RunReader) (List RunReader)) rs = .ok rs rs := rfl
  have hmod : ((matching.filterMap fun ri => rs[ri]?).map RunReader.posCount).sum % 2 ^ 64 =
      ((matching.filterMap fun ri => rs[ri]?).map RunReader.posCount).sum := by
    apply Nat.mod_eq_of_lt
    rw [hcount]
    exact Nat.lt_of_le_of_lt (length_pendingPositions_le cfg.hasPositions sts matching) htotal
  rw [emitTerm, bind_ok hget]
  simp only [hmod]
  generalize hstream : (cfg.allowStream && shouldStreamPositions
    ((matching.filterMap fun ri => rs[ri]?).map fun r => r.docids.length).sum
    ((matching.filterMap fun ri => rs[ri]?).map RunReader.posCount).sum cfg.hasPositions) = stream
  cases stream with
  | false =>
      obtain ⟨rs', hco, hrs'⟩ := @coalesce_copy _ _ _ _ matching _ { term := term } [] hrs hfresh
        (fun i hi => hi) hnodup ⟨rfl, rfl⟩ (by simp [posOf]) hheads
      rw [bind_ok (reservePositions_granted hroom _ _ _), bind_ok hco]
      refine ⟨_, rs', rfl, ⟨rfl, rfl, rfl, ?_, by simp, by simp, fun hallow hpos hwide => ?_⟩, hrs'⟩
      · simp [posOf]
      · have hstreams := shouldStream_of_wide hfresh hheads hpos (Nat.le_trans (by decide) hwide)
        rw [hallow, hstreams] at hstream
        cases hstream
  | true =>
      have hco := @coalesce_stream _ _ _ matching { term := term } [] hfresh ⟨rfl, rfl⟩ hheads
      have hallow : cfg.allowStream = true := (Bool.and_eq_true_iff.mp hstream).1
      have hpos : cfg.hasPositions = true := by
        have := (Bool.and_eq_true_iff.mp hstream).2
        simp only [shouldStreamPositions, Bool.and_eq_true] at this
        exact this.1.1
      rw [bind_ok (reservePositions_granted hroom _ _ _), bind_ok hco]
      simp only [Bool.true_and, decide_eq_true_eq, if_true]
      by_cases hslim : (mergedGroups sts [] matching).length < kSlimDfThreshold
      · rw [if_pos (by simpa using hslim)]
        obtain ⟨rs', hmat, hrs'⟩ := materializeAll_spec matching hrs hfresh (fun i hi => hi) hnodup
        rw [bind_ok (reservePositions_granted hroom _ _ _), bind_ok hmat]
        refine ⟨_, rs', rfl, ⟨rfl, rfl, rfl, ?_, by simp, by simp, fun _ _ hwide => ?_⟩, hrs'⟩
        · show [] ++ pendingPositions cfg.hasPositions sts matching = _
          rw [List.nil_append, ← hpending]
          simp [posOf]
        · exact absurd hslim (Nat.not_lt.mpr (Nat.le_trans (by decide) hwide))
      · rw [if_neg (by simpa using hslim)]
        have hat : ∃ rest here, PumpAt cfg.hasPositions sts matching { readers := rs } rest here
            (pendingPositions cfg.hasPositions sts matching) := by
          cases matching with
          | nil => exact ⟨[], [], rfl, rfl, rfl, rfl⟩
          | cons i later =>
              obtain ⟨r, x, recs, hr, hsts, hload⟩ := hfresh i (by simp)
              refine ⟨i :: later, posOf cfg.hasPositions x.2, rfl, rfl,
                (List.nodup_cons.mp hnodup).1, ⟨r, x, recs, hr, hsts, hload⟩,
                fun j hj => hfresh j (by simp [hj]), ?_⟩
              simp [pendingPositions, headGroups, hsts]
        obtain ⟨rest, here, hat⟩ := hat
        let tp : TermPostings :=
          { term := term, docids := (mergedGroups sts [] matching).map Prod.fst
            freqs := freqsOf (mergedGroups sts [] matching), streamed := true
            posTotal := (pendingPositions cfg.hasPositions sts matching).length }
        obtain ⟨hpull, hok, hrs'⟩ := pumpPulls_spec (fun i hi => hi) hnodup (cfg.plan tp) hrs hat
          (hplan tp rfl) hpos
        refine ⟨{ postings := tp, pulled := (pumpPulls matching (cfg.plan tp) { readers := rs }).1 },
          _, ?_, ⟨rfl, rfl, rfl, by simp [tp], fun _ => ?_,
            fun _ => ⟨hallow, hpos, Nat.le_of_not_lt hslim, ?_⟩, fun _ _ _ => rfl⟩, hrs'⟩
        · rw [hcount]
          show EStateM.Result.ok (_, (pumpPulls matching (cfg.plan tp) { readers := rs }).2.status)
            (pumpPulls matching (cfg.plan tp) { readers := rs }).2.readers = _
          rw [hok]
        · show (pumpPulls matching (cfg.plan tp) { readers := rs }).1 = _
          rw [hpull, ← hpending, posOf, if_pos hpos]
        · show (pendingPositions cfg.hasPositions sts matching).length = _
          rw [← hpending, posOf, if_pos hpos]

end Snii.Writer.SpillRunCodec
