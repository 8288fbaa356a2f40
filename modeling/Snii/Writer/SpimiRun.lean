import Mathlib.Data.List.Forall2
import Snii.Writer.SpimiInvariant

/-!
# Feeding the buffer

Over a whole feed the spill triggers cut the tokens into segments
(`segmentsAfter`).  With every spill succeeding, no token overflows the arena,
and the buffer at the end holds exactly those segments (`addTokens_inv`).  A
drain without runs returns every term of the resident tokens in dictionary order
(`drainSorted_lays`).
-/

namespace Snii.Writer.SpimiTermBuffer

open Snii.Lib.ByteReader Snii.Lib.Grouping Snii.Common Snii.Writer.CompactPostingPool
  Snii.Writer.SpillRunCodec

/-- The segments a feed is cut into, from resident tokens `cur` and spilled
segments `segs`: a segment ends at each token after which a trigger fires. -/
def segmentsAfter : Buffer → List (Token × TokenEnv) → List (List Token) → List Token →
    List (List Token) × List Token
  | _, [], segs, cur => (segs, cur)
  | b, (t, env) :: feed, segs, cur =>
      match appendTo b t.termId t.docid t.pos with
      | none => (segs, cur)
      | some b' =>
          if spillGate env b' then
            segmentsAfter (maybeSpill env b') feed (segs ++ [cur ++ [t]]) []
          else segmentsAfter (maybeSpill env b') feed segs (cur ++ [t])

/-- A buffer between tokens: no error latched, arena below the spill cap, and no
segment with more tokens of a term than its counter holds. -/
structure Running (b : Buffer) (segs : List (List Token)) (cur : List Token) : Prop where
  inv : BufferInv b segs cur
  status : b.spillStatus = none
  arena : b.pool.arenaBytes < kArenaSpillCap
  drained : b.drained = false
  small : ∀ seg ∈ segs, ∀ id, (toksOf seg id).length < 2 ^ 32

/-- The resident segment is no exception. -/
theorem Running.small_concat {b : Buffer} {segs : List (List Token)} {cur : List Token}
    (h : Running b segs cur) :
    ∀ seg ∈ segs ++ [cur], ∀ id, (toksOf seg id).length < 2 ^ 32 := by
  intro seg hseg
  rcases List.mem_append.mp hseg with hseg | hseg
  · exact h.small seg hseg
  · rw [List.mem_singleton.mp hseg]
    exact h.inv.resident.count_lt

/-- The settings a feed does not change. -/
structure SameConfig (b b' : Buffer) : Prop where
  vocab : b'.vocab = b.vocab
  hasPositions : b'.hasPositions = b.hasPositions
  ownedVocab : b'.ownedVocab = b.ownedVocab

theorem SameConfig.trans {b b' b'' : Buffer} (h : SameConfig b b') (h' : SameConfig b' b'') :
    SameConfig b b'' :=
  ⟨h'.vocab.trans h.vocab, h'.hasPositions.trans h.hasPositions,
    h'.ownedVocab.trans h.ownedVocab⟩

/-- What a feed must satisfy at a buffer over a vocabulary. -/
structure FeedOk (vocab : List Bytes) (feed : List (Token × TokenEnv)) : Prop where
  inVocab : ∀ x ∈ feed, x.1.termId < vocab.length
  valid : ∀ x ∈ feed, x.1.Valid
  good : ∀ x ∈ feed, Good x.2.spill

/-- **One token**: it is added, and the segment is cut when a trigger fires. -/
theorem accumulate_inv {b : Buffer} {segs : List (List Token)} {cur : List Token} {t : Token}
    {env : TokenEnv} (h : Running b segs cur) (hvocab : b.vocab.Nodup)
    (hid : t.termId < b.vocab.length) (hvalid : ∀ k ∈ cur ++ [t], k.Valid)
    (henv : Good env.spill) :
    ∃ b1 b', appendTo b t.termId t.docid t.pos = some b1 ∧ maybeSpill env b1 = b' ∧
      SameConfig b b' ∧
      if spillGate env b1 then Running b' (segs ++ [cur ++ [t]]) []
      else Running b' segs (cur ++ [t]) := by
  have hsmall := h.arena
  have hroom : b.pool.nBlocks + 40 ≤ maxBlocks := by
    simp only [Pool.arenaBytes, kBlockSize, kArenaSpillCap] at hsmall
    simp only [maxBlocks]
    omega
  obtain ⟨b1, hb1⟩ := Option.isSome_iff_exists.mp (appendTo_isSome h.inv hid hroom)
  have hoff : b.pool.nextOffset < 2 ^ 32 :=
    Nat.lt_of_le_of_lt h.inv.wf.inBlocks (Nat.lt_trans hsmall (by decide))
  obtain ⟨hcount, _⟩ := appendTo_count h.inv.resident hid hoff hb1
  obtain ⟨hinv, _, hsame⟩ := appendTo_inv h.inv hid hcount hb1
  have hstatus : b1.spillStatus = none := by rw [hsame]; exact h.status
  have hdrained : b1.drained = false := by rw [hsame]; exact h.drained
  have hcfg : SameConfig b b1 := ⟨by rw [hsame], by rw [hsame], by rw [hsame]⟩
  refine ⟨b1, maybeSpill env b1, hb1, rfl, ?_⟩
  by_cases hgate : spillGate env b1 = true
  · obtain ⟨b2, hspill, hinv2, hsame2⟩ :=
      spillToRun_inv henv hinv (by rw [hcfg.vocab]; exact hvocab) hvalid
    have heq : maybeSpill env b1 = b2 := by
      simp only [maybeSpill, hgate, hstatus, Option.isNone_none, Bool.and_self, if_true, hspill]
    rw [if_pos hgate, heq]
    refine ⟨hcfg.trans ⟨by rw [hsame2], by rw [hsame2], by rw [hsame2]⟩, hinv2, ?_, ?_, ?_, ?_⟩
    · rw [hsame2]; exact hstatus
    · rw [hsame2]
      simp [Pool.arenaBytes, kArenaSpillCap]
    · rw [hsame2]; exact hdrained
    · intro seg hseg
      rcases List.mem_append.mp hseg with hseg | hseg
      · exact h.small seg hseg
      · rw [List.mem_singleton.mp hseg]
        exact hinv.resident.count_lt
  · have heq : maybeSpill env b1 = b1 := by
      simp only [maybeSpill]
      rw [if_neg (by simp [hgate])]
    rw [if_neg hgate, heq]
    refine ⟨hcfg, hinv, hstatus, ?_, hdrained, h.small⟩
    simp only [spillGate, Bool.or_eq_true, decide_eq_true_eq, not_or] at hgate
    omega

/-- **The feed**: it is accepted whole and leaves the segments it was cut into. -/
theorem addTokens_inv (feed : List (Token × TokenEnv)) {b : Buffer} {segs : List (List Token)}
    {cur : List Token} (h : Running b segs cur) (hvocab : b.vocab.Nodup)
    (hfeed : FeedOk b.vocab feed) (hcur : ∀ k ∈ cur, k.Valid) :
    ∃ b', addTokens b feed = some b' ∧ SameConfig b b' ∧
      Running b' (segmentsAfter b feed segs cur).1 (segmentsAfter b feed segs cur).2 ∧
      (segmentsAfter b feed segs cur).1.flatten ++ (segmentsAfter b feed segs cur).2 =
        segs.flatten ++ cur ++ feed.map Prod.fst := by
  induction feed generalizing b segs cur with
  | nil => exact ⟨b, rfl, ⟨rfl, rfl, rfl⟩, h, by simp [segmentsAfter]⟩
  | cons x feed ih =>
      obtain ⟨t, env⟩ := x
      have hid := hfeed.inVocab (t, env) (by simp)
      have ht := hfeed.valid (t, env) (by simp)
      have hvalid : ∀ k ∈ cur ++ [t], k.Valid := by
        intro k hk
        rcases List.mem_append.mp hk with hk | hk
        · exact hcur k hk
        · rw [List.mem_singleton.mp hk]
          exact ht
      obtain ⟨b1, b', hb1, hb', hcfg, hrun⟩ :=
        accumulate_inv h hvocab hid hvalid (hfeed.good (t, env) (by simp))
      have hadd : addToken env b t.termId t.docid t.pos = some b' := by
        have hsize : ¬ t.termId ≥ b.slotOf.length := by
          rw [h.inv.slots.size]
          exact Nat.not_le.mpr hid
        rw [addToken, if_neg hsize, accumulate, hb1, Option.map_some, hb']
      have hfeed' : FeedOk b'.vocab feed := by
        rw [hcfg.vocab]
        exact ⟨fun y hy => hfeed.inVocab y (by simp [hy]), fun y hy => hfeed.valid y (by simp [hy]),
          fun y hy => hfeed.good y (by simp [hy])⟩
      rw [addTokens, hadd, segmentsAfter, hb1]
      simp only [hb']
      by_cases hgate : spillGate env b1 = true
      · rw [if_pos hgate] at hrun
        obtain ⟨b2, h2, hcfg2, hrun2, hflat⟩ := ih hrun (by rw [hcfg.vocab]; exact hvocab) hfeed'
          (by simp)
        rw [if_pos hgate]
        exact ⟨b2, h2, hcfg.trans hcfg2, hrun2, by simpa using hflat⟩
      · rw [if_neg hgate] at hrun
        obtain ⟨b2, h2, hcfg2, hrun2, hflat⟩ := ih hrun (by rw [hcfg.vocab]; exact hvocab) hfeed'
          hvalid
        rw [if_neg hgate]
        exact ⟨b2, h2, hcfg.trans hcfg2, hrun2, by simpa using hflat⟩

/-! ## Draining the arena -/

/-- The reference: every term of the tokens in dictionary order, with the
grouping of its tokens. -/
def LaysAll (plan : TermPostings → List Nat) (allowStream : Bool) (vocab : List Bytes)
    (hasPositions : Bool) (toks : List Token) (out : List Emitted) : Prop :=
  List.Forall₂
    (fun e id => Lays plan allowStream e hasPositions (vocab.getD id []) (group (toksOf toks id)))
    out (dictIds vocab toks)

/-- **An in-memory drain** returns the reference grouping of the resident tokens. -/
theorem drainSorted_lays {b : Buffer} {segs : List (List Token)} {cur : List Token}
    (h : BufferInv b segs cur) (hvocab : b.vocab.Nodup) (hvalid : ∀ t ∈ cur, t.Valid)
    {plan : TermPostings → List Nat} {allowStream : Bool} (hplan : Restrained plan) :
    LaysAll plan allowStream b.vocab b.hasPositions cur (drainSorted plan allowStream b).1 := by
  have hids := sortedIds_eq h hvocab
  obtain ⟨hterms, _, _⟩ := takeTerms_spec (sortedIds b) h.slots
    (by rw [hids]; exact nodup_dictIds _ _)
    (fun id hid => by rw [hids] at hid; exact (h.touched id).mpr (mem_dictIds.mp hid))
  obtain ⟨sl, hsl, _⟩ := h.chains
  have hout : (drainSorted plan allowStream b).1 = (dictIds b.vocab cur).map fun id =>
      emitPostings b.pool (liveTerm b id) plan
        (toPostings b.pool b.hasPositions (b.vocab.getD id []) (liveTerm b id) allowStream) := by
    rw [hids] at hterms
    simp only [drainSorted, hids, hterms, List.map_map]
    rfl
  rw [LaysAll, hout, List.forall₂_map_left_iff, List.forall₂_same]
  intro id hid
  have htouched : id ∈ b.touchedIds := (h.touched id).mpr (mem_dictIds.mp hid)
  have hne : toksOf cur id ≠ [] := fun hnil => toksOf_eq_nil.mp hnil (mem_dictIds.mp hid)
  exact emitPostings_lays (hsl id htouched) (toksOf_valid hvalid id) hne _ _ hplan

end Snii.Writer.SpimiTermBuffer
