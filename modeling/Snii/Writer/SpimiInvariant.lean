import Snii.Writer.SlotPool
import Snii.Writer.ToPostings

/-!
# The buffer's invariant

Between two tokens the buffer is described by the token segments already spilled
and the tokens still resident (`BufferInv`): the touched ids are those of the
resident tokens, each id's chain holds its tokens, chains do not overlap, and
the run files hold the groupings of the spilled segments.  Adding a token
extends the resident tokens by it; a spill turns them into one more segment.
-/

namespace Snii.Writer.SpimiTermBuffer

open Snii.Lib.ByteReader Snii.Lib.Grouping Snii.Common Snii.Encoding.Varint
  Snii.Writer.CompactPostingPool Snii.Writer.SpillRunCodec

/-- The tokens of one term. -/
def toksOf (toks : List Token) (id : Nat) : List Tok :=
  (toks.filter fun t => t.termId = id).map fun t => (t.docid, t.pos)

/-- The order of the dictionary on vocabulary ids. -/
def dictLe (vocab : List Bytes) (a b : Nat) : Prop := vocab.getD a [] ≤ vocab.getD b []

instance (vocab : List Bytes) : DecidableRel (dictLe vocab) := fun a b =>
  inferInstanceAs (Decidable (vocab.getD a [] ≤ vocab.getD b []))

/-- The ids of the tokens, once each, in dictionary order. -/
def dictIds (vocab : List Bytes) (toks : List Token) : List Nat :=
  (toks.map Token.termId).dedup.insertionSort (dictLe vocab)

/-- The postings that lay out a list of groups. -/
def groupPostings (hasPositions : Bool) (g : List (Nat × List Nat)) : TermPostings :=
  { docids := g.map Prod.fst
    freqs := g.map fun x => x.2.length
    positionsFlat := if hasPositions then g.flatMap Prod.snd else [] }

/-- The run file of a token segment. -/
def runFile (vocab : List Bytes) (hasPositions : Bool) (seg : List Token) : Bytes :=
  (dictIds vocab seg).flatMap fun id =>
    encodeRecord id (groupPostings hasPositions (group (toksOf seg id)))

/-- Slices for every live id, holding its tokens, that do not overlap. -/
def ChainsHold (b : Buffer) (toks : Nat → List Tok) (sl : Nat → List Slice) : Prop :=
  (∀ id ∈ b.touchedIds,
    TermHolds b.pool b.hasPositions (liveTerm b id) (sl id) (toks id)) ∧
  ∀ id ∈ b.touchedIds, ∀ j ∈ b.touchedIds, id ≠ j →
    ∀ a, Footprint (sl id) a → ¬ Footprint (sl j) a

/-- The resident part of the buffer: its chains hold the resident tokens. -/
structure Resident (b : Buffer) (cur : List Token) : Prop where
  slots : SlotInv b b.touchedIds
  touched : ∀ id, id ∈ b.touchedIds ↔ id ∈ cur.map Token.termId
  wf : b.pool.WF
  chains : ∃ sl, ChainsHold b (toksOf cur) sl

structure BufferInv (b : Buffer) (segs : List (List Token)) (cur : List Token) : Prop where
  slots : SlotInv b b.touchedIds
  touched : ∀ id, id ∈ b.touchedIds ↔ id ∈ cur.map Token.termId
  wf : b.pool.WF
  chains : ∃ sl, ChainsHold b (toksOf cur) sl
  runs : b.runs = segs.map (runFile b.vocab b.hasPositions)

theorem BufferInv.resident {b : Buffer} {segs : List (List Token)} {cur : List Token}
    (h : BufferInv b segs cur) : Resident b cur :=
  ⟨h.slots, h.touched, h.wf, h.chains⟩

/-- No term has more resident tokens than its counter holds. -/
theorem Resident.count_lt {b : Buffer} {cur : List Token} (h : Resident b cur) (id : Nat) :
    (toksOf cur id).length < 2 ^ 32 := by
  obtain ⟨sl, hsl, -⟩ := h.chains
  by_cases hid : id ∈ b.touchedIds
  · exact (hsl id hid).count
  · have hnil : toksOf cur id = [] := by
      refine List.map_eq_nil_iff.mpr (List.filter_eq_nil_iff.mpr fun t ht => ?_)
      rw [h.touched] at hid
      simpa using fun heq : t.termId = id => hid (heq ▸ List.mem_map_of_mem ht)
    rw [hnil]
    decide

theorem toksOf_append (l m : List Token) (id : Nat) :
    toksOf (l ++ m) id = toksOf l id ++ toksOf m id := by
  simp [toksOf]

theorem toksOf_snoc (toks : List Token) (t : Token) (id : Nat) :
    toksOf (toks ++ [t]) id =
      if t.termId = id then toksOf toks id ++ [(t.docid, t.pos)] else toksOf toks id := by
  by_cases h : t.termId = id
  · simp [toksOf, h]
  · simp [toksOf, h]

theorem toksOf_eq_nil {toks : List Token} {id : Nat} :
    toksOf toks id = [] ↔ id ∉ toks.map Token.termId := by
  simp only [toksOf, List.map_eq_nil_iff, List.filter_eq_nil_iff, decide_eq_true_eq, List.mem_map,
    not_exists, not_and]

/-! ## Adding a token -/

/-- A state in which `id` is live, perhaps with no token yet. -/
private structure Ready (b : Buffer) (id : Nat) (cur : List Token) : Prop where
  slots : SlotInv b b.touchedIds
  live : id ∈ b.touchedIds
  touched : ∀ j, j ∈ b.touchedIds ↔ j ∈ cur.map Token.termId ∨ j = id
  wf : b.pool.WF
  chains : ∃ sl, ChainsHold b (toksOf cur) sl

/-- The buffer right after `term_slot` and the bookkeeping of a new term. -/
def claimed (b : Buffer) (termId : Nat) : Buffer :=
  if (termSlot b termId).2.1 then
    { (termSlot b termId).2.2 with
      touchedIds := (termSlot b termId).2.2.touchedIds ++ [termId]
      liveTermCount := (termSlot b termId).2.2.liveTermCount + 1 }
  else (termSlot b termId).2.2

theorem appendTo_eq (b : Buffer) (termId docid pos : Nat) :
    appendTo b termId docid pos =
      (appendToken (claimed b termId).hasPositions (claimed b termId).pool
        ((claimed b termId).slots.getD (termSlot b termId).1 {}) docid pos).map fun r =>
        { claimed b termId with
          pool := r.1, slots := (claimed b termId).slots.set (termSlot b termId).1 r.2
          totalTokens := (claimed b termId).totalTokens + 1 } := rfl

private theorem claimed_ready {b : Buffer} {cur : List Token} (h : Resident b cur) {id : Nat}
    (hid : id < b.vocab.length) :
    Ready (claimed b id) id cur ∧ (claimed b id).slotOf.getD id 0 = (termSlot b id).1 + 1 ∧
      claimed b id = { b with slotOf := (claimed b id).slotOf, slots := (claimed b id).slots
                              freeSlots := (claimed b id).freeSlots
                              touchedIds := (claimed b id).touchedIds
                              liveTermCount := (claimed b id).liveTermCount } := by
  by_cases hlive : id ∈ b.touchedIds
  · have hslot := termSlot_live h.slots hlive
    have hne := (h.slots.live_iff id).mpr hlive
    have heq : claimed b id = b := by simp [claimed, hslot]
    refine ⟨⟨by rw [heq]; exact h.slots, by rw [heq]; exact hlive, ?_, by rw [heq]; exact h.wf,
      by rw [heq]; exact h.chains⟩, ?_, by rw [heq]⟩
    · intro j
      rw [heq, h.touched j]
      constructor
      · exact fun hj => Or.inl hj
      · rintro (hj | rfl)
        · exact hj
        · exact (h.touched j).mp hlive
    · rw [heq, hslot]
      omega
  · obtain ⟨slot, b', hslot, hinv, hslotOf, _, hfresh, hkeeps, hsame⟩ :=
      termSlot_fresh h.slots (by rw [h.slots.size]; exact hid) hlive
    have heq : claimed b id = { b' with touchedIds := b.touchedIds ++ [id]
                                        liveTermCount := b'.liveTermCount + 1 } := by
      have htouched : b'.touchedIds = b.touchedIds := by rw [hsame]
      simp [claimed, hslot, htouched]
    have hnone : toksOf cur id = [] := toksOf_eq_nil.mpr fun hmem =>
      hlive ((h.touched id).mpr hmem)
    obtain ⟨sl, hsl, hdisj⟩ := h.chains
    rw [heq, hslot]
    refine ⟨⟨⟨hinv.size, hinv.nodup, hinv.live_iff, hinv.bound, hinv.inj, hinv.freeNodup,
      hinv.free_iff, hinv.fresh, hinv.count⟩, by simp, ?_, ?_, ?_⟩, hslotOf, ?_⟩
    · intro j
      simp only [List.mem_append, List.mem_singleton, h.touched j]
    · have hpool : b'.pool = b.pool := by rw [hsame]
      show b'.pool.WF
      rw [hpool]
      exact h.wf
    · refine ⟨fun j => if j = id then [] else sl j, ?_, ?_⟩
      · intro j hj
        have hpool : b'.pool = b.pool := by rw [hsame]
        have hpos : b'.hasPositions = b.hasPositions := by rw [hsame]
        show TermHolds b'.pool b'.hasPositions (liveTerm b' j) (if j = id then [] else sl j)
          (toksOf cur j)
        rcases List.mem_append.mp hj with hj | hj
        · have hjne : j ≠ id := fun heq => hlive (heq ▸ hj)
          rw [if_neg hjne, hkeeps j hj, hpool, hpos]
          exact hsl j hj
        · obtain rfl := List.mem_singleton.mp hj
          have hterm : liveTerm b' j = {} := by
            rw [liveTerm, hslotOf]
            exact hfresh
          rw [if_pos rfl, hnone, hterm]
          exact TermHolds.empty _ _
      · intro j hj i hi hne a hja hia
        by_cases hjid : j = id
        · simp only [if_pos hjid] at hja
          obtain ⟨s, hs, _⟩ := hja
          simp at hs
        · by_cases hiid : i = id
          · simp only [if_pos hiid] at hia
            obtain ⟨s, hs, _⟩ := hia
            simp at hs
          · simp only [if_neg hjid] at hja
            simp only [if_neg hiid] at hia
            have hj' : j ∈ b.touchedIds := by
              rcases List.mem_append.mp hj with hj | hj
              · exact hj
              · exact absurd (List.mem_singleton.mp hj) hjid
            have hi' : i ∈ b.touchedIds := by
              rcases List.mem_append.mp hi with hi | hi
              · exact hi
              · exact absurd (List.mem_singleton.mp hi) hiid
            exact hdisj j hj' i hi' hne a hja hia
    · rw [hsame]

/-- Writing a live id's term back keeps the slot pool. -/
private theorem slotInv_setTerm {b : Buffer} {live : List Nat} (h : SlotInv b live) {id slot : Nat}
    (hid : id ∈ live) (hslot : b.slotOf.getD id 0 = slot + 1) (p : Pool) (t : Term) (n : Nat) :
    SlotInv { b with pool := p, slots := b.slots.set slot t, totalTokens := n } live where
  size := h.size
  nodup := h.nodup
  live_iff := h.live_iff
  bound := by simpa using h.bound
  inj := h.inj
  freeNodup := h.freeNodup
  free_iff := by simpa using h.free_iff
  fresh := by
    intro s hs
    have hne := ((h.free_iff s).mp hs).2 id hid
    show (b.slots.set slot t).getD s {} = {}
    rw [getD_set_ne (by omega)]
    exact h.fresh s hs
  count := h.count

/-- **A token added**: the resident tokens grow by it. -/
theorem appendTo_resident {b b' : Buffer} {cur : List Token} {t : Token}
    (h : Resident b cur) (hid : t.termId < b.vocab.length)
    (hcount : (toksOf cur t.termId).length + 1 < 2 ^ 32)
    (happ : appendTo b t.termId t.docid t.pos = some b') :
    Resident b' (cur ++ [t]) ∧ b'.pool.nBlocks ≤ b.pool.nBlocks + 40 ∧
      b' = { b with slotOf := b'.slotOf, slots := b'.slots, freeSlots := b'.freeSlots
                    touchedIds := b'.touchedIds, liveTermCount := b'.liveTermCount
                    pool := b'.pool, totalTokens := b'.totalTokens } := by
  obtain ⟨⟨hslots, hlive, htouched, hwf, sl, hsl, hdisj⟩, hslot, hsame⟩ := claimed_ready h hid
  rw [appendTo_eq] at happ
  simp only [Option.map_eq_some_iff] at happ
  obtain ⟨⟨p', t'⟩, htok, rfl⟩ := happ
  generalize hc : claimed b t.termId = c at *
  generalize (termSlot b t.termId).1 = slot at *
  have hterm : liveTerm c t.termId = c.slots.getD slot {} := by
    rw [liveTerm, hslot]
    rfl
  have hbound := hslots.bound _ hlive
  have hholds := hsl _ hlive
  rw [hterm] at hholds
  obtain ⟨slices', hholds', hext⟩ := appendToken_spec hwf hholds hcount htok
  have hpool : c.pool = b.pool := by rw [hsame]
  have hpos : c.hasPositions = b.hasPositions := by rw [hsame]
  refine ⟨⟨slotInv_setTerm hslots hlive hslot _ _ _, ?_, hext.wf, ?_⟩, ?_, ?_⟩
  · intro j
    simp only [htouched j, List.map_append, List.map_cons, List.map_nil, List.mem_append,
      List.mem_singleton]
  · refine ⟨fun j => if j = t.termId then slices' else sl j, ?_, ?_⟩
    · intro j hj
      by_cases hjid : j = t.termId
      · subst hjid
        have hterm' : liveTerm { c with pool := p', slots := c.slots.set slot t', totalTokens := c.totalTokens + 1 }
            t.termId = t' := by
          simp only [liveTerm, hslot]
          exact getD_set_self (by omega) _ _
        simp only [if_pos]
        rw [hterm', toksOf_snoc, if_pos rfl]
        exact hholds'
      · have hjne := (hslots.live_iff j).mpr hj
        have hslotNe : c.slotOf.getD j 0 ≠ c.slotOf.getD t.termId 0 := fun heq =>
          hjid (hslots.inj j hj _ hlive heq)
        have hterm' : liveTerm { c with pool := p', slots := c.slots.set slot t', totalTokens := c.totalTokens + 1 } j =
            liveTerm c j := by
          simp only [liveTerm]
          exact getD_set_ne (by omega) _ _
        simp only [if_neg hjid]
        rw [hterm', toksOf_snoc, if_neg (Ne.symm hjid)]
        exact (hsl j hj).frame hext (hdisj j hj _ hlive hjid)
    · -- fresh memory is below no other chain, so chains stay apart
      have hkey : ∀ j ∈ c.touchedIds, j ≠ t.termId → ∀ a, Footprint slices' a →
          ¬ Footprint (sl j) a := by
        intro j hj hjid a ha hja
        rcases hext.fresh a ha with hold | hnew
        · exact hdisj _ hlive j hj (Ne.symm hjid) a hold hja
        · have := (hsl j hj).bytes.inside a hja
          omega
      intro j hj i hi hne a hja hia
      by_cases hjid : j = t.termId
      · have hiid : i ≠ t.termId := fun heq => hne (hjid.trans heq.symm)
        simp only [if_pos hjid] at hja
        simp only [if_neg hiid] at hia
        exact hkey i hi hiid a hja hia
      · simp only [if_neg hjid] at hja
        by_cases hiid : i = t.termId
        · simp only [if_pos hiid] at hia
          exact hkey j hj hjid a hia hja
        · simp only [if_neg hiid] at hia
          exact hdisj j hj i hi hne a hja hia
  · have := hext.blocks
    rw [hpool] at this
    exact this
  · rw [hsame]

/-- A token added to a buffer with its runs. -/
theorem appendTo_inv {b b' : Buffer} {segs : List (List Token)} {cur : List Token} {t : Token}
    (h : BufferInv b segs cur) (hid : t.termId < b.vocab.length)
    (hcount : (toksOf cur t.termId).length + 1 < 2 ^ 32)
    (happ : appendTo b t.termId t.docid t.pos = some b') :
    BufferInv b' segs (cur ++ [t]) ∧ b'.pool.nBlocks ≤ b.pool.nBlocks + 40 ∧
      b' = { b with slotOf := b'.slotOf, slots := b'.slots, freeSlots := b'.freeSlots
                    touchedIds := b'.touchedIds, liveTermCount := b'.liveTermCount
                    pool := b'.pool, totalTokens := b'.totalTokens } := by
  obtain ⟨hres, hblocks, hsame⟩ := appendTo_resident h.resident hid hcount happ
  refine ⟨⟨hres.slots, hres.touched, hres.wf, hres.chains, ?_⟩, hblocks, hsame⟩
  rw [hsame]
  exact h.runs

/-- A token that was added fits in the counters and leaves the arena in 32 bits. -/
theorem appendTo_count {b b' : Buffer} {cur : List Token} {t : Token} (h : Resident b cur)
    (hid : t.termId < b.vocab.length) (hoff : b.pool.nextOffset < 2 ^ 32)
    (happ : appendTo b t.termId t.docid t.pos = some b') :
    (toksOf cur t.termId).length + 1 < 2 ^ 32 ∧ b'.pool.nextOffset < 2 ^ 32 := by
  obtain ⟨⟨_, hlive, _, hwf, sl, hsl, _⟩, hslot, hsame⟩ := claimed_ready h hid
  have hholds := hsl _ hlive
  have hpool : (claimed b t.termId).pool = b.pool := by rw [hsame]
  have hterm : liveTerm (claimed b t.termId) t.termId =
      (claimed b t.termId).slots.getD (termSlot b t.termId).1 {} := by
    rw [liveTerm, hslot]
    rfl
  rw [hterm] at hholds
  rw [appendTo_eq] at happ
  simp only [Option.map_eq_some_iff] at happ
  obtain ⟨⟨p', t'⟩, htok, rfl⟩ := happ
  exact appendToken_count hwf (by rw [hpool]; exact hoff) hholds htok

/-- A token fits while the arena is below the spill cap. -/
theorem appendTo_isSome {b : Buffer} {segs : List (List Token)} {cur : List Token} {t : Token}
    (h : BufferInv b segs cur) (hid : t.termId < b.vocab.length)
    (hroom : b.pool.nBlocks + 40 ≤ maxBlocks) :
    (appendTo b t.termId t.docid t.pos).isSome := by
  obtain ⟨⟨_, hlive, _, hwf, sl, hsl, _⟩, hslot, hsame⟩ := claimed_ready h.resident hid
  have hholds := hsl _ hlive
  have hpool : (claimed b t.termId).pool = b.pool := by rw [hsame]
  have hterm : liveTerm (claimed b t.termId) t.termId =
      (claimed b t.termId).slots.getD (termSlot b t.termId).1 {} := by
    rw [liveTerm, hslot]
    rfl
  rw [hterm] at hholds
  rw [appendTo_eq, Option.isSome_map]
  exact appendToken_isSome hwf hholds (by rw [hpool]; exact hroom) t.docid t.pos

/-! ## Dictionary order -/

/-- Positions in a strictly ordered list compare as their elements. -/
private theorem idxOf_le_iff {α : Type*} [LinearOrder α] {key : Nat → α} {order : List Nat}
    (hsorted : order.Pairwise fun a b => key a < key b) {a b : Nat} (ha : a ∈ order)
    (hb : b ∈ order) : order.idxOf a ≤ order.idxOf b ↔ key a ≤ key b := by
  have hmono : ∀ {x y : Nat}, x ∈ order → y ∈ order → order.idxOf x < order.idxOf y →
      key x < key y := by
    intro x y hx hy hlt
    have hyl := List.idxOf_lt_length_of_mem hy
    have hxl := List.idxOf_lt_length_of_mem hx
    have := List.pairwise_iff_getElem.mp hsorted _ _ hxl hyl hlt
    simpa using this
  constructor
  · intro hle
    rcases Nat.lt_or_eq_of_le hle with hlt | heq
    · exact (hmono ha hb hlt).le
    · have hab : a = b := by
        have h1 := List.getElem_idxOf (List.idxOf_lt_length_of_mem ha)
        have h2 := List.getElem_idxOf (List.idxOf_lt_length_of_mem hb)
        rw [← h1, ← h2]
        simp only [heq]
      rw [hab]
  · intro hle
    by_contra hlt
    exact absurd (hmono hb ha (Nat.lt_of_not_le hlt)) (not_lt.mpr hle)

theorem vocab_injective {vocab : List Bytes} (hvocab : vocab.Nodup) {a b : Nat}
    (ha : a < vocab.length) (hb : b < vocab.length) (h : vocab.getD a [] = vocab.getD b []) :
    a = b := by
  simp only [List.getD_eq_getElem?_getD, List.getElem?_eq_getElem ha,
    List.getElem?_eq_getElem hb, Option.getD_some] at h
  exact (hvocab.getElem_inj_iff).mp h

/-- The cached rank compares ids as the dictionary does. -/
theorem stringRank_le_iff {vocab : List Bytes} (hvocab : vocab.Nodup) {a b : Nat}
    (ha : a < vocab.length) (hb : b < vocab.length) :
    (stringRank vocab).getD a 0 ≤ (stringRank vocab).getD b 0 ↔ dictLe vocab a b := by
  let r : Nat → Nat → Prop := fun a b => vocab.getD a [] ≤ vocab.getD b []
  have : Std.Total r := ⟨fun _ _ => le_total _ _⟩
  have : IsTrans Nat r := ⟨fun _ _ _ => le_trans⟩
  let order := (List.range vocab.length).insertionSort r
  have hmem : ∀ i, i ∈ order ↔ i < vocab.length := by
    intro i
    simp [order, List.mem_insertionSort]
  have hsorted : order.Pairwise fun a b => vocab.getD a [] < vocab.getD b [] := by
    have hle : order.Pairwise r := List.pairwise_insertionSort r _
    have hnd : order.Nodup := (List.perm_insertionSort r _).nodup_iff.mpr List.nodup_range
    refine (List.Pairwise.and hle hnd).imp_of_mem ?_
    rintro x y hx hy ⟨hxy, hne⟩
    exact lt_of_le_of_ne hxy fun heq =>
      hne (vocab_injective hvocab ((hmem x).mp hx) ((hmem y).mp hy) heq)
  have hrank : ∀ i < vocab.length, (stringRank vocab).getD i 0 = order.idxOf i := by
    intro i hi
    simp [stringRank, hi, order, r]
  rw [hrank a ha, hrank b hb]
  exact idxOf_le_iff hsorted ((hmem a).mpr ha) ((hmem b).mpr hb)

instance (vocab : List Bytes) : Std.Total (dictLe vocab) := ⟨fun _ _ => le_total _ _⟩

instance (vocab : List Bytes) : IsTrans Nat (dictLe vocab) := ⟨fun _ _ _ => le_trans⟩

/-- Two orderings of the same ids by the dictionary are equal. -/
theorem eq_of_dictLe_sorted {vocab : List Bytes} (hvocab : vocab.Nodup) {l m : List Nat}
    (hl : l.Pairwise (dictLe vocab)) (hm : m.Pairwise (dictLe vocab)) (hp : l.Perm m)
    (hlt : ∀ i ∈ l, i < vocab.length) : l = m := by
  refine List.Perm.eq_of_pairwise (fun a b ha hb hab hba => ?_) hl hm hp
  exact vocab_injective hvocab (hlt a ha) (hlt b (hp.mem_iff.mpr hb)) (le_antisymm hab hba)

theorem mem_dictIds {vocab : List Bytes} {toks : List Token} {id : Nat} :
    id ∈ dictIds vocab toks ↔ id ∈ toks.map Token.termId := by
  rw [dictIds, List.mem_insertionSort, List.mem_dedup]

theorem nodup_dictIds (vocab : List Bytes) (toks : List Token) : (dictIds vocab toks).Nodup :=
  (List.perm_insertionSort _ _).nodup_iff.mpr (List.nodup_dedup _)

/-- **The drain order** is the dictionary order of the touched ids. -/
theorem sortedIds_eq {b : Buffer} {segs : List (List Token)} {cur : List Token}
    (h : BufferInv b segs cur) (hvocab : b.vocab.Nodup) : sortedIds b = dictIds b.vocab cur := by
  have hlt : ∀ id ∈ b.touchedIds, id < b.vocab.length := by
    intro id hid
    rw [← h.slots.size]
    exact h.slots.lt_length hid
  let r : Nat → Nat → Prop := fun a c =>
    (stringRank b.vocab).getD a 0 ≤ (stringRank b.vocab).getD c 0
  have : Std.Total r := ⟨fun _ _ => Nat.le_total _ _⟩
  have : IsTrans Nat r := ⟨fun _ _ _ => Nat.le_trans⟩
  have hperm : (sortedIds b).Perm b.touchedIds := List.perm_insertionSort r _
  refine eq_of_dictLe_sorted hvocab ?_ (List.pairwise_insertionSort _ _) ?_
    fun i hi => hlt i (hperm.mem_iff.mp hi)
  · have hsorted : (sortedIds b).Pairwise r := List.pairwise_insertionSort r _
    refine hsorted.imp_of_mem fun {x y} hx hy hxy => ?_
    exact (stringRank_le_iff hvocab (hlt x (hperm.mem_iff.mp hx))
      (hlt y (hperm.mem_iff.mp hy))).mp hxy
  · refine hperm.trans (((List.perm_ext_iff_of_nodup h.slots.nodup (List.nodup_dedup _)).mpr ?_).trans
      (List.perm_insertionSort _ _).symm)
    intro id
    rw [h.touched id, List.mem_dedup]

/-! ## Spilling -/

/-- Every answer of the operating system is a success. -/
structure Good (env : SpillEnv) : Prop where
  hasSpace : env.hasSpace = true
  opens : env.opens = true
  writes : ∀ n, env.writes n = true
  closes : env.closes = true

private theorem flush_good {env : SpillEnv} (henv : Good env) (w : RunWriter) :
    ∃ w', w.flush env = (.ok (), w') ∧ w'.file = w.file ++ w.buf ∧ w'.buf = [] := by
  unfold RunWriter.flush
  by_cases hbuf : w.buf = []
  · exact ⟨w, by rw [if_pos hbuf], by simp [hbuf], hbuf⟩
  · refine ⟨_, by rw [if_neg hbuf, if_pos (henv.writes _)], rfl, rfl⟩

private theorem writeTerm_good {env : SpillEnv} (henv : Good env) (w : RunWriter) (id : Nat)
    (tp : TermPostings) : ∃ w', w.writeTerm env id tp = (.ok (), w') ∧
      w'.file ++ w'.buf = w.file ++ w.buf ++ encodeRecord id tp := by
  unfold RunWriter.writeTerm
  simp only
  split
  · obtain ⟨w', heq, hfile, hbuf⟩ :=
      flush_good henv { w with buf := w.buf ++ encodeRecord id tp }
    exact ⟨w', heq, by simp [hfile, hbuf]⟩
  · exact ⟨_, rfl, by simp⟩

private theorem writeTerms_good {env : SpillEnv} (henv : Good env) (p : Pool) (hasPositions : Bool)
    (vocab : List Bytes) (terms : List (Nat × Term)) (w : RunWriter) :
    ∃ w', writeTerms env p hasPositions vocab terms (.ok ()) w = (.ok (), w') ∧
      w'.file ++ w'.buf = w.file ++ w.buf ++ terms.flatMap fun e =>
        encodeRecord e.1 (toPostings p hasPositions (vocab.getD e.1 []) e.2 false) := by
  induction terms generalizing w with
  | nil => exact ⟨w, rfl, by simp⟩
  | cons e terms ih =>
      obtain ⟨w1, h1, hc1⟩ := writeTerm_good henv w e.1
        (toPostings p hasPositions (vocab.getD e.1 []) e.2 false)
      obtain ⟨w2, h2, hc2⟩ := ih w1
      refine ⟨w2, ?_, ?_⟩
      · rw [writeTerms, h1]
        exact h2
      · rw [hc2, hc1, List.flatMap_cons, List.append_assoc]

/-- A record depends on the arrays alone. -/
private theorem encodeRecord_toPostings {p : Pool} {hasPositions : Bool} {t : Term}
    {slices : List Slice} {toks : List Tok} (h : TermHolds p hasPositions t slices toks)
    (hvalid : ∀ k ∈ toks, k.Valid) (hne : toks ≠ []) (id : Nat) (term : Bytes) :
    encodeRecord id (toPostings p hasPositions term t false) =
      encodeRecord id (groupPostings hasPositions (group toks)) := by
  obtain ⟨_, hdocs, hfreqs, hflat, _, hstr⟩ := toPostings_spec h hvalid hne term false
  have hs : (toPostings p hasPositions term t false).streamed = false := by
    by_contra hs
    exact absurd (hstr (by simpa using hs)).1 (by simp)
  simp only [encodeRecord, groupPostings, hdocs, hfreqs, hflat hs]

/-- 32-bit term ids, docids and positions. -/
def Token.Valid (t : Token) : Prop := t.termId < 2 ^ 32 ∧ t.docid < 2 ^ 32 ∧ t.pos < 2 ^ 32

theorem toksOf_valid {toks : List Token} (h : ∀ t ∈ toks, t.Valid) (id : Nat) :
    ∀ k ∈ toksOf toks id, k.Valid := by
  intro k hk
  obtain ⟨t, ht, rfl⟩ := List.mem_map.mp hk
  exact (h t (List.mem_filter.mp ht).1).2

/-- Everything taken out: no live id is left. -/
theorem filter_notMem_eq_nil {live ids : List Nat} (h : ∀ id ∈ live, id ∈ ids) :
    live.filter (fun id => id ∉ ids) = [] := by
  refine List.filter_eq_nil_iff.mpr fun id hid => ?_
  simpa using h id hid

/-- **A spill**: the resident tokens become one more segment. -/
theorem spillToRun_inv {b : Buffer} {segs : List (List Token)} {cur : List Token} {env : SpillEnv}
    (henv : Good env) (h : BufferInv b segs cur) (hvocab : b.vocab.Nodup)
    (hvalid : ∀ t ∈ cur, t.Valid) :
    ∃ b', spillToRun env b = (.ok (), b') ∧ BufferInv b' (segs ++ [cur]) [] ∧
      b' = { b with slotOf := b'.slotOf, slots := b'.slots, freeSlots := b'.freeSlots
                    liveTermCount := b'.liveTermCount, touchedIds := [], pool := {}
                    runs := b'.runs } := by
  have hids := sortedIds_eq h hvocab
  obtain ⟨hterms, hinv, hsame⟩ := takeTerms_spec (sortedIds b) h.slots
    (by rw [hids]; exact nodup_dictIds _ _)
    (fun id hid => by rw [hids] at hid; exact (h.touched id).mpr (mem_dictIds.mp hid))
  have hnil : b.touchedIds.filter (fun id => id ∉ sortedIds b) = [] := by
    refine filter_notMem_eq_nil fun id hid => ?_
    rw [hids]
    exact mem_dictIds.mpr ((h.touched id).mp hid)
  rw [hnil] at hinv
  obtain ⟨sl, hsl, _⟩ := h.chains
  obtain ⟨w, hw, hcontent⟩ := writeTerms_good henv b.pool b.hasPositions b.vocab
    (takeTerms b (sortedIds b)).1 {}
  obtain ⟨w', hflush, hfile, _⟩ := flush_good henv w
  have hrun : w'.file = runFile b.vocab b.hasPositions cur := by
    rw [hfile, hcontent, hterms, hids, runFile, List.flatMap_map]
    simp only [List.nil_append]
    refine List.flatMap_congr fun id hid => ?_
    have htouched : id ∈ b.touchedIds := (h.touched id).mpr (mem_dictIds.mp hid)
    have hne : toksOf cur id ≠ [] := fun hnil =>
      toksOf_eq_nil.mp hnil (mem_dictIds.mp hid)
    exact encodeRecord_toPostings (hsl id htouched) (toksOf_valid hvalid id) hne id _
  have hclose : w.close env = (.ok (), w') := by
    simp only [RunWriter.close, hflush, henv.closes, if_true]
  refine ⟨{ (takeTerms b (sortedIds b)).2 with
    touchedIds := [], pool := {}, runs := (takeTerms b (sortedIds b)).2.runs ++ [w'.file] }, ?_, ?_,
    ?_⟩
  · unfold spillToRun
    rw [if_neg (by simp [henv.hasSpace]), if_neg (by simp [henv.opens])]
    simp only [drainToWriter, hw, hclose]
  · have hruns : (takeTerms b (sortedIds b)).2.runs = b.runs := by rw [hsame]
    have hvoc : (takeTerms b (sortedIds b)).2.vocab = b.vocab := by rw [hsame]
    have hpos : (takeTerms b (sortedIds b)).2.hasPositions = b.hasPositions := by rw [hsame]
    refine ⟨⟨hinv.size, hinv.nodup, hinv.live_iff, hinv.bound, hinv.inj, hinv.freeNodup,
      hinv.free_iff, hinv.fresh, hinv.count⟩, by simp, Pool.WF.empty, ⟨fun _ => [], ?_, ?_⟩, ?_⟩
    · intro id hid
      simp at hid
    · intro id hid
      simp at hid
    · simp only [hruns, hvoc, hpos, h.runs, hrun, List.map_append, List.map_cons, List.map_nil]
  · rw [hsame]

end Snii.Writer.SpimiTermBuffer
