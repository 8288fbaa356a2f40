import Snii.Writer.SpimiInvariant

/-!
# The slot pool over whole runs

A run is any sequence of `add_token` calls, by id or by string, on a buffer over a
borrowed or an owned vocabulary.  What the surroundings answer is part of each call,
so a spill may succeed, be refused before anything is drained, or fail after the
terms were taken out.

Between two calls the live ids and the slots stay matched (`SlotInv`), and the chain
of a live term holds the tokens of that term since the arena was last emptied, whatever
slots and arena bytes were used before (`Resident`).
-/

namespace Snii.Writer.SpimiTermBuffer

open Snii.Lib.ByteReader Snii.Common Snii.Writer.CompactPostingPool Snii.Writer.SpillRunCodec

/-! ## Runs -/

/-- One `add_token` call, with what the surroundings answer. -/
inductive AddCall where
  | byId (termId docid pos : Nat) (env : TokenEnv)
  | byString (term : Bytes) (docid pos : Nat) (env : TokenEnv)

namespace AddCall

def env : AddCall → TokenEnv
  | .byId _ _ _ env => env
  | .byString _ _ _ env => env

/-- The call on a buffer; `none` is the arena's overflow exception. -/
def run (b : Buffer) : AddCall → Option Buffer
  | .byId termId docid pos env => addToken env b termId docid pos
  | .byString term docid pos env => addTokenString env b term docid pos

/-- The token that the call appends; a call that is refused appends none. -/
def token (b : Buffer) : AddCall → Option Token
  | .byId termId docid pos _ => if termId ≥ b.slotOf.length then none else some ⟨termId, docid, pos⟩
  | .byString term docid pos _ =>
      if b.ownedVocab = false then none else some ⟨b.vocab.idxOf term, docid, pos⟩

/-- The buffer after the vocabulary lookup: a new string has its id. -/
def interned (b : Buffer) : AddCall → Buffer
  | .byId _ _ _ _ => b
  | .byString term _ _ _ =>
      if b.vocab.contains term then b else { b with vocab := b.vocab ++ [term], slotOf := b.slotOf ++ [0] }

theorem run_of_refused {b : Buffer} {c : AddCall} (h : c.token b = none) :
    ∃ s, c.run b = some (latch b s) := by
  cases c with
  | byId termId docid pos env =>
      have hid : termId ≥ b.slotOf.length := by simpa [token] using h
      exact ⟨_, if_pos hid⟩
  | byString term docid pos env =>
      have howned : b.ownedVocab = false := by simpa [token] using h
      exact ⟨_, if_pos howned⟩

theorem run_of_token {b : Buffer} {c : AddCall} {t : Token} (h : c.token b = some t) :
    c.run b = accumulate c.env (c.interned b) t.termId t.docid t.pos := by
  cases c with
  | byId termId docid pos env =>
      simp only [token, Option.ite_none_left_eq_some, Option.some.injEq] at h
      obtain ⟨hid, rfl⟩ := h
      exact if_neg hid
  | byString term docid pos env =>
      simp only [token, Option.ite_none_left_eq_some, Option.some.injEq] at h
      obtain ⟨howned, rfl⟩ := h
      simp only [run, addTokenString, if_neg howned, interned, AddCall.env]
      by_cases hmem : term ∈ b.vocab
      · rw [if_pos hmem, if_pos (List.contains_iff_mem.mpr hmem)]
      · have hnew : ¬ b.vocab.contains term = true := fun h => hmem (List.contains_iff_mem.mp h)
        rw [if_neg hmem, if_neg hnew, List.idxOf_of_notMem hmem]

end AddCall

def runAdds : Buffer → List AddCall → Option Buffer
  | b, [] => some b
  | b, c :: calls => (c.run b).bind fun b => runAdds b calls

/-- The tokens that the calls of a run append. -/
def addedTokens : Buffer → List AddCall → List Token
  | _, [] => []
  | b, c :: calls => (c.token b).toList ++ ((c.run b).map fun b => addedTokens b calls).getD []

/-- A buffer as its constructors leave it. -/
inductive Constructed : Buffer → Prop
  | borrowed (vocab : List Bytes) (hasPositions : Bool) (spillThresholdBytes : Nat)
      (hasReporter : Bool) :
      Constructed (Buffer.borrowed vocab hasPositions spillThresholdBytes hasReporter)
  | interning (hasPositions : Bool) (spillThresholdBytes : Nat) (hasReporter : Bool) :
      Constructed (Buffer.interning hasPositions spillThresholdBytes hasReporter)

/-! ## What a spill does -/

/-- The buffer with every resident term taken out and the arena reset. -/
def emptied (b : Buffer) : Buffer :=
  { (takeTerms b (sortedIds b)).2 with touchedIds := [], pool := {} }

/-- A spill is refused, or empties the buffer into one more run file. -/
theorem spillToRun_cases (env : SpillEnv) (b : Buffer) :
    (∃ s, spillToRun env b = (.error s, b)) ∨
      ∃ r file, spillToRun env b = (r, { emptied b with runs := (emptied b).runs ++ [file] }) := by
  unfold spillToRun
  by_cases hspace : env.hasSpace = false
  · exact Or.inl ⟨_, if_pos hspace⟩
  · rw [if_neg hspace]
    by_cases hopens : env.opens = false
    · exact Or.inl ⟨_, if_pos hopens⟩
    · rw [if_neg hopens]
      apply Or.inr
      simp only [drainToWriter]
      cases hw : (writeTerms env b.pool b.hasPositions b.vocab (takeTerms b (sortedIds b)).1
          (.ok ()) {}).1 with
      | error s => exact ⟨_, _, rfl⟩
      | ok u => exact ⟨_, _, rfl⟩

/-- After a token the buffer is kept or emptied; the status may be latched. -/
theorem maybeSpill_cases (env : TokenEnv) (b : Buffer) :
    (∃ st, maybeSpill env b = { b with spillStatus := st }) ∨
      ∃ st runs, maybeSpill env b = { emptied b with runs := runs, spillStatus := st } := by
  unfold maybeSpill
  by_cases hgate : (spillGate env b && b.spillStatus.isNone) = true
  · rw [if_pos hgate]
    rcases spillToRun_cases env.spill b with ⟨s, heq⟩ | ⟨r, file, heq⟩
    · rw [heq]
      exact Or.inl ⟨some s, rfl⟩
    · rw [heq]
      apply Or.inr
      cases r with
      | error s => exact ⟨some s, _, rfl⟩
      | ok u => exact ⟨(emptied b).spillStatus, _, rfl⟩
  · rw [if_neg hgate]
    exact Or.inl ⟨b.spillStatus, rfl⟩

/-! ## The invariant -/

variable {b b' : Buffer} {cur : List Token}

theorem perm_sortedIds (b : Buffer) : (sortedIds b).Perm b.touchedIds :=
  List.perm_insertionSort _ _

theorem Constructed.resident (h : Constructed b) : Resident b [] := by
  have hzero : ∀ (l : List Nat), (∀ x ∈ l, x = 0) → ∀ id, l.getD id 0 = 0 := by
    intro l hl id
    rw [List.getD_eq_getElem?_getD]
    cases hget : l[id]? with
    | none => rfl
    | some x => exact hl x (List.mem_of_getElem? hget)
  have hslots : ∀ b : Buffer, b.slotOf = List.replicate b.vocab.length 0 → b.slots = [] →
      b.freeSlots = [] → b.touchedIds = [] → b.liveTermCount = 0 → b.pool = {} →
      Resident b [] := by
    intro b hslotOf hslots hfree htouched hcount hpool
    refine ⟨⟨by simp [hslotOf], by simp [htouched], ?_, by simp [htouched], by simp [htouched],
      by simp [hfree], by simp [hfree, hslots], by simp [hfree], by simp [hcount, htouched]⟩,
      by simp [htouched], by rw [hpool]; exact Pool.WF.empty, fun _ => [], ?_, ?_⟩
    · intro id
      rw [htouched, hslotOf, hzero _ fun x hx => List.eq_of_mem_replicate hx]
      simp
    · rw [htouched]
      exact fun id hid => absurd hid List.not_mem_nil
    · rw [htouched]
      exact fun id hid => absurd hid List.not_mem_nil
  cases h with
  | borrowed vocab hasPositions threshold reporter => exact hslots _ rfl rfl rfl rfl rfl rfl
  | interning hasPositions threshold reporter => exact hslots _ rfl rfl rfl rfl rfl rfl

theorem Constructed.nextOffset (h : Constructed b) : b.pool.nextOffset = 0 := by
  cases h <;> rfl

/-- The runs and the status play no part in the resident terms. -/
theorem Resident.withStatus (h : Resident b cur) (runs : List Bytes) (st : Option Status) :
    Resident { b with runs := runs, spillStatus := st } cur :=
  ⟨⟨h.slots.size, h.slots.nodup, h.slots.live_iff, h.slots.bound, h.slots.inj, h.slots.freeNodup,
    h.slots.free_iff, h.slots.fresh, h.slots.count⟩, h.touched, h.wf, h.chains⟩

/-- A string added to the vocabulary has no slot yet. -/
theorem Resident.interned (h : Resident b cur) (c : AddCall) : Resident (c.interned b) cur := by
  cases c with
  | byId termId docid pos env => exact h
  | byString term docid pos env =>
      by_cases hmem : b.vocab.contains term = true
      · rw [AddCall.interned, if_pos hmem]
        exact h
      · rw [AddCall.interned, if_neg hmem]
        have hslot : ∀ id, (b.slotOf ++ [0]).getD id 0 = b.slotOf.getD id 0 := by
          intro id
          simp only [List.getD_eq_getElem?_getD]
          by_cases hid : id < b.slotOf.length
          · rw [List.getElem?_append_left hid]
          · rw [List.getElem?_append_right (Nat.not_lt.mp hid),
              List.getElem?_eq_none (Nat.not_lt.mp hid)]
            cases id - b.slotOf.length <;> rfl
        obtain ⟨sl, hholds, hapart⟩ := h.chains
        refine ⟨⟨by simp [h.slots.size], h.slots.nodup, ?_, ?_, ?_, h.slots.freeNodup, ?_,
          h.slots.fresh, h.slots.count⟩, h.touched, h.wf, sl, ?_, hapart⟩
        · simpa only [hslot] using h.slots.live_iff
        · simpa only [hslot] using h.slots.bound
        · simpa only [hslot] using h.slots.inj
        · simpa only [hslot] using h.slots.free_iff
        · simpa only [liveTerm, hslot] using hholds

/-- Every live id is taken out: the slots that remain are free and fresh. -/
theorem Resident.emptied (h : Resident b cur) :
    Resident (emptied b) [] ∧
      (takeTerms b (sortedIds b)).1 = (sortedIds b).map fun id => (id, liveTerm b id) := by
  have hperm := perm_sortedIds b
  obtain ⟨hterms, hinv, -⟩ := takeTerms_spec (sortedIds b) h.slots
    (hperm.nodup_iff.mpr h.slots.nodup) fun id hid => hperm.mem_iff.mp hid
  have hnil : b.touchedIds.filter (fun id => id ∉ sortedIds b) = [] :=
    filter_notMem_eq_nil fun id hid => hperm.mem_iff.mpr hid
  rw [hnil] at hinv
  refine ⟨⟨⟨hinv.size, hinv.nodup, hinv.live_iff, hinv.bound, hinv.inj, hinv.freeNodup,
    hinv.free_iff, hinv.fresh, hinv.count⟩, by simp [SpimiTermBuffer.emptied], Pool.WF.empty,
    fun _ => [], ?_, ?_⟩, hterms⟩
  · exact fun id hid => absurd hid List.not_mem_nil
  · exact fun id hid => absurd hid List.not_mem_nil

/-- The tokens of a buffer whose arena offsets fit in 32 bits. -/
structure Between (b : Buffer) (cur : List Token) : Prop where
  resident : Resident b cur
  offsets : b.pool.nextOffset < 2 ^ 32

theorem AddCall.token_lt {c : AddCall} {t : Token} (h : Resident b cur)
    (ht : c.token b = some t) : t.termId < (c.interned b).vocab.length := by
  cases c with
  | byId termId docid pos env =>
      simp only [token, Option.ite_none_left_eq_some, Option.some.injEq] at ht
      obtain ⟨hid, rfl⟩ := ht
      rw [h.slots.size] at hid
      exact Nat.not_le.mp hid
  | byString term docid pos env =>
      simp only [token, Option.ite_none_left_eq_some, Option.some.injEq] at ht
      obtain ⟨-, rfl⟩ := ht
      by_cases hmem : b.vocab.contains term = true
      · rw [interned, if_pos hmem]
        exact List.idxOf_lt_length_of_mem (List.contains_iff_mem.mp hmem)
      · have hnew : term ∉ b.vocab := fun h => hmem (List.contains_iff_mem.mpr h)
        rw [interned, if_neg hmem]
        simp [List.idxOf_of_notMem hnew]

/-- **One call**: the resident tokens grow by its token, or the arena was emptied. -/
theorem Between.step {c : AddCall} (h : Between b cur) (hrun : c.run b = some b') :
    Between b' (cur ++ (c.token b).toList) ∨ Between b' [] := by
  cases htok : c.token b with
  | none =>
      obtain ⟨s, heq⟩ := AddCall.run_of_refused htok
      rw [heq, Option.some.injEq] at hrun
      subst hrun
      apply Or.inl
      rw [Option.toList_none, List.append_nil]
      exact ⟨h.resident.withStatus b.runs _, h.offsets⟩
  | some t =>
      have hres := h.resident.interned c
      have hid := AddCall.token_lt h.resident htok
      have hoff : (c.interned b).pool.nextOffset < 2 ^ 32 := by
        have hpool : (c.interned b).pool = b.pool := by
          cases c with
          | byId => rfl
          | byString => rw [AddCall.interned]; split <;> rfl
        rw [hpool]
        exact h.offsets
      rw [AddCall.run_of_token htok, accumulate, Option.map_eq_some_iff] at hrun
      obtain ⟨b1, happ, rfl⟩ := hrun
      obtain ⟨hcount, hoff1⟩ := appendTo_count hres hid hoff happ
      obtain ⟨hres1, -, -⟩ := appendTo_resident hres hid hcount happ
      rcases maybeSpill_cases c.env b1 with ⟨st, heq⟩ | ⟨st, runs, heq⟩
      · rw [heq]
        exact Or.inl ⟨hres1.withStatus b1.runs st, hoff1⟩
      · rw [heq]
        exact Or.inr ⟨hres1.emptied.1.withStatus runs st, (by decide : 0 < 2 ^ 32)⟩

/-- **Any run**: what is resident are the last tokens of the run. -/
theorem Between.run {calls : List AddCall} (h : Between b cur)
    (hrun : runAdds b calls = some b') :
    ∃ earlier resident, cur ++ addedTokens b calls = earlier ++ resident ∧ Between b' resident := by
  induction calls generalizing b cur with
  | nil =>
      cases hrun
      exact ⟨[], cur, by simp [addedTokens], h⟩
  | cons c calls ih =>
      obtain ⟨b1, hstep, hrest⟩ := Option.bind_eq_some_iff.mp hrun
      have htokens : addedTokens b (c :: calls) = (c.token b).toList ++ addedTokens b1 calls := by
        rw [addedTokens, hstep]
        rfl
      rw [htokens]
      rcases h.step hstep with hkept | hemptied
      · obtain ⟨earlier, resident, hsplit, hinv⟩ := ih hkept hrest
        exact ⟨earlier, resident, by rw [← hsplit, List.append_assoc], hinv⟩
      · obtain ⟨earlier, resident, hsplit, hinv⟩ := ih hemptied hrest
        rw [List.nil_append] at hsplit
        exact ⟨cur ++ ((c.token b).toList ++ earlier), resident, by simp [hsplit], hinv⟩

/-! ## The slot pool between two calls -/

/-- The ids with a slot are the touched ids, each with a slot of its own; every other
slot is free, once; an id touched for the first time is handed a fresh term. -/
structure SlotPoolSound (b : Buffer) : Prop where
  live_iff : ∀ id, b.slotOf.getD id 0 ≠ 0 ↔ id ∈ b.touchedIds
  once : b.touchedIds.Nodup
  count : b.liveTermCount = b.touchedIds.length
  bound : ∀ id ∈ b.touchedIds, b.slotOf.getD id 0 - 1 < b.slots.length
  injective : ∀ id ∈ b.touchedIds, ∀ id' ∈ b.touchedIds,
    b.slotOf.getD id 0 - 1 = b.slotOf.getD id' 0 - 1 → id = id'
  freeOnce : b.freeSlots.Nodup
  free_iff : ∀ s, s ∈ b.freeSlots ↔
    s < b.slots.length ∧ ∀ id ∈ b.touchedIds, b.slotOf.getD id 0 - 1 ≠ s
  handsFresh : ∀ (c : AddCall) (t : Token), c.token b = some t → t.termId ∉ b.touchedIds →
    ∃ slot b', termSlot (c.interned b) t.termId = (slot, true, b') ∧ slot < b'.slots.length ∧
      b'.slots.getD slot {} = {}

theorem Resident.slotPoolSound (h : Resident b cur) : SlotPoolSound b where
  live_iff := h.slots.live_iff
  once := h.slots.nodup
  count := h.slots.count
  bound := by
    intro id hid
    have hne := (h.slots.live_iff id).mpr hid
    have hle := h.slots.bound id hid
    omega
  injective := by
    intro id hid id' hid' heq
    have hne := (h.slots.live_iff id).mpr hid
    have hne' := (h.slots.live_iff id').mpr hid'
    exact h.slots.inj id hid id' hid' (by omega)
  freeOnce := h.slots.freeNodup
  free_iff := by
    intro s
    rw [h.slots.free_iff s]
    apply and_congr_right
    intro _
    apply forall₂_congr
    intro id hid
    have hne := (h.slots.live_iff id).mpr hid
    omega
  handsFresh := by
    intro c t htok hnew
    have hres := h.interned c
    have htouched : (c.interned b).touchedIds = b.touchedIds := by
      cases c with
      | byId => rfl
      | byString => rw [AddCall.interned]; split <;> rfl
    have hid : t.termId < (c.interned b).slotOf.length := by
      rw [hres.slots.size]
      exact AddCall.token_lt h htok
    obtain ⟨slot, b1, heq, hclaim⟩ := termSlot_fresh hres.slots hid (by rw [htouched]; exact hnew)
    exact ⟨slot, b1, heq, hclaim.lt, hclaim.fresh⟩

/-- **The slot pool over any run**, whatever spills succeed or fail: between two calls
ids and slots match, a drain takes from every touched id its own term, and the chain of
each term holds its own tokens since the arena was last emptied, and no other byte. -/
theorem slotPool_of_run {calls : List AddCall} (hstart : Constructed b)
    (hrun : runAdds b calls = some b') :
    SlotPoolSound b' ∧
      ((sortedIds b').Perm b'.touchedIds ∧
        (takeTerms b' (sortedIds b')).1 = (sortedIds b').map fun id => (id, liveTerm b' id)) ∧
      ∃ earlier resident, addedTokens b calls = earlier ++ resident ∧
        (∀ id, id ∈ b'.touchedIds ↔ id ∈ resident.map Token.termId) ∧
        ∃ sl, ChainsHold b' (toksOf resident) sl := by
  have hbetween : Between b [] := ⟨hstart.resident, by rw [hstart.nextOffset]; decide⟩
  obtain ⟨earlier, resident, hsplit, hinv⟩ := hbetween.run hrun
  exact ⟨hinv.resident.slotPoolSound, ⟨perm_sortedIds b', hinv.resident.emptied.2⟩, earlier,
    resident, hsplit, hinv.resident.touched, hinv.resident.chains⟩

/-- The second token's spill fails at its first write, after the terms were taken out. -/
def failedSpillCalls : List AddCall :=
  [.byString [97] 0 3 {},
   .byString [98] 0 4 { overCap := true, spill := { writes := fun _ => false } },
   .byId 1 2 5 {}, .byId 9 0 0 {}]

theorem slotPool_of_run_failedSpill :
    ∃ b', runAdds (.interning true 0 true) failedSpillCalls = some b' ∧
      b'.touchedIds = [1] ∧ b'.freeSlots = [0] ∧ b'.spillStatus ≠ none ∧ SlotPoolSound b' := by
  obtain ⟨b', hrun⟩ : ∃ b', runAdds (.interning true 0 true) failedSpillCalls = some b' :=
    Option.isSome_iff_exists.mp (by decide)
  have hfields : (runAdds (.interning true 0 true) failedSpillCalls).map
      (fun b => (b.touchedIds, b.freeSlots, b.spillStatus.isNone)) = some ([1], [0], false) := by
    decide
  rw [hrun] at hfields
  simp only [Option.map_some, Option.some.injEq, Prod.mk.injEq] at hfields
  obtain ⟨htouched, hfree, hst⟩ := hfields
  have hlatched : b'.spillStatus ≠ none := by
    intro hnone
    rw [hnone] at hst
    cases hst
  exact ⟨b', hrun, htouched, hfree, hlatched,
    (slotPool_of_run (Constructed.interning _ _ _) hrun).1⟩

end Snii.Writer.SpimiTermBuffer
