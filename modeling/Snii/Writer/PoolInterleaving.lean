import Snii.Writer.PoolChains

/-!
# Many chains in one arena

Any interleaving of `start_chain` and `append_byte` calls over any number of chains.
The chains' slices stay disjoint and inside allocated blocks, and a cursor at a
chain's head reads the bytes appended to that chain, then the zeros of its last
slice, and stops there.  `Chain.slices` records what was allocated for a chain; the
source keeps no such list.
-/

namespace Snii.Writer.CompactPostingPool

open Snii.Lib.ByteReader

/-! ## Interleavings -/

structure Chain where
  head : Nat
  writer : SliceWriter
  slices : List Slice
deriving DecidableEq

inductive Op where
  | start
  | append (chain : Nat) (value : UInt8)
deriving DecidableEq

structure Arena where
  pool : Pool := {}
  chains : List Chain := []

/-- One call; `none` is the overflow exception, or a chain that was not started. -/
def Arena.step (a : Arena) : Op → Option Arena
  | .start => do
      let (pool, w, head) ← startChain a.pool
      some { pool := pool
             chains := a.chains ++ [{ head := head, writer := w, slices := [⟨head, 0⟩] }] }
  | .append i value => do
      let c ← a.chains[i]?
      let (pool, w) ← appendByte a.pool c.writer value
      some { pool := pool
             chains := a.chains.set i { c with writer := w, slices := grown c.slices c.writer w } }

def Arena.run : Arena → List Op → Option Arena
  | a, [] => some a
  | a, op :: ops => do
      let a ← a.step op
      a.run ops

/-- The byte an operation appends to chain `i`. -/
def Op.bytesFor (i : Nat) : Op → Bytes
  | .start => []
  | .append j value => if j = i then [value] else []

def appended (ops : List Op) (i : Nat) : Bytes := ops.flatMap (Op.bytesFor i)

/-- Every chain holds its bytes, in slices of its own that lie in one block each. -/
structure Arena.Inv (a : Arena) (bytes : Nat → Bytes) : Prop where
  wf : a.pool.WF
  holds : ∀ (i : Nat) (c : Chain), a.chains[i]? = some c → Holds a.pool c.head c.slices (bytes i) c.writer
  oneBlock : ∀ (i : Nat) (c : Chain), a.chains[i]? = some c → ∀ s ∈ c.slices, s.OneBlock
  disjoint : ∀ (i j : Nat) (c d : Chain), i ≠ j → a.chains[i]? = some c → a.chains[j]? = some d →
    ∀ x, Footprint c.slices x → ¬ Footprint d.slices x
  unstarted : ∀ i, a.chains.length ≤ i → bytes i = []

theorem Arena.Inv.empty : ({} : Arena).Inv fun _ => [] where
  wf := Pool.WF.empty
  holds := by simp
  oneBlock := by simp
  disjoint := by simp
  unstarted := fun _ _ => rfl

theorem startChain_oneBlock {p p' : Pool} {w : SliceWriter} {head : Nat} (hp : p.WF)
    (h : startChain p = some (p', w, head)) : (Slice.mk head 0).OneBlock := by
  unfold startChain at h
  cases halloc : p.allocSlice 0 with
  | none => simp [halloc] at h
  | some r =>
      obtain ⟨q, first, sliceEnd⟩ := r
      simp only [halloc, Option.bind_eq_bind, Option.bind_some, Option.some.injEq,
        Prod.mk.injEq] at h
      obtain ⟨-, -, rfl⟩ := h
      exact Pool.allocSlice_oneBlock hp halloc

/-- What one operation on chain `i` does to the rest: the invariant of all chains
follows from the operation's effect on its own chain. -/
theorem Arena.Inv.update {a a' : Arena} {bytes bytes' : Nat → Bytes} {i : Nat} {c : Chain}
    {old : List Slice} (h : a.Inv bytes) (hext : Extends 1 a.pool a'.pool old c.slices)
    (hold : ∀ x, Footprint old x → ∃ d, a.chains[i]? = some d ∧ Footprint d.slices x)
    (hc : Holds a'.pool c.head c.slices (bytes' i) c.writer)
    (hblock : ∀ s ∈ c.slices, s.OneBlock) (hi : a'.chains[i]? = some c)
    (hother : ∀ j, j ≠ i → a'.chains[j]? = a.chains[j]? ∧ bytes' j = bytes j)
    (hlen : a.chains.length ≤ a'.chains.length) : a'.Inv bytes' where
  wf := hext.wf
  holds := by
    intro j d hj
    by_cases hij : j = i
    · subst hij
      rw [hi] at hj
      cases hj
      exact hc
    · rw [(hother j hij).1] at hj
      rw [(hother j hij).2]
      apply (h.holds j d hj).frame hext
      intro x hx hxold
      obtain ⟨e, he, hex⟩ := hold x hxold
      exact h.disjoint j i d e hij hj he x hx hex
  oneBlock := by
    intro j d hj
    by_cases hij : j = i
    · subst hij
      rw [hi] at hj
      cases hj
      exact hblock
    · rw [(hother j hij).1] at hj
      exact h.oneBlock j d hj
  disjoint := by
    have hkey : ∀ j d, j ≠ i → a.chains[j]? = some d → ∀ x, Footprint d.slices x →
        ¬ Footprint c.slices x := by
      intro j d hij hj x hd hx
      rcases hext.fresh x hx with hxold | hnew
      · obtain ⟨e, he, hex⟩ := hold x hxold
        exact h.disjoint j i d e hij hj he x hd hex
      · have := (h.holds j d hj).inside x hd
        omega
    intro j k d e hne hj hk x hd he
    by_cases hji : j = i
    · subst hji
      rw [hi] at hj
      cases hj
      rw [(hother k (Ne.symm hne)).1] at hk
      exact hkey k e (Ne.symm hne) hk x he hd
    · rw [(hother j hji).1] at hj
      by_cases hki : k = i
      · subst hki
        rw [hi] at hk
        cases hk
        exact hkey j d hji hj x hd he
      · rw [(hother k hki).1] at hk
        exact h.disjoint j k d e hne hj hk x hd he
  unstarted := by
    intro j hj
    have hji : j ≠ i := by
      rintro rfl
      rw [List.getElem?_eq_none hj] at hi
      cases hi
    rw [(hother j hji).2]
    exact h.unstarted j (by omega)

/-- **Step**: a call keeps every chain apart and adds its byte to its own chain. -/
theorem Arena.Inv.step {a a' : Arena} {bytes : Nat → Bytes} {op : Op} (h : a.Inv bytes)
    (hstep : a.step op = some a') : a'.Inv fun i => bytes i ++ op.bytesFor i := by
  cases op with
  | start =>
      cases hstart : startChain a.pool with
      | none => simp [Arena.step, hstart] at hstep
      | some r =>
          obtain ⟨pool, w, head⟩ := r
          simp only [Arena.step, hstart, Option.bind_eq_bind, Option.bind_some,
            Option.some.injEq] at hstep
          subst hstep
          obtain ⟨hholds, hext, -⟩ := startChain_spec h.wf hstart
          apply Arena.Inv.update (i := a.chains.length)
            (c := { head := head, writer := w, slices := [⟨head, 0⟩] }) h hext
          · rintro x ⟨s, hs, -⟩
            cases hs
          · simp only [Op.bytesFor, List.append_nil]
            rw [h.unstarted _ (Nat.le_refl _)]
            exact hholds
          · intro s hs
            obtain rfl := List.mem_singleton.mp hs
            exact startChain_oneBlock h.wf hstart
          · simp
          · intro j hj
            refine ⟨?_, by simp [Op.bytesFor]⟩
            rcases Nat.lt_or_ge j a.chains.length with hlt | hge
            · simp [List.getElem?_append_left hlt]
            · simp only [List.getElem?_append_right hge, List.getElem?_eq_none hge]
              apply List.getElem?_eq_none
              simp only [List.length_singleton]
              omega
          · simp
  | append i value =>
      cases hc : a.chains[i]? with
      | none => simp [Arena.step, hc] at hstep
      | some c =>
          cases happ : appendByte a.pool c.writer value with
          | none => simp [Arena.step, hc, happ] at hstep
          | some r =>
              obtain ⟨pool, w⟩ := r
              simp only [Arena.step, hc, happ, Option.bind_eq_bind, Option.bind_some,
                Option.some.injEq] at hstep
              subst hstep
              have hlt : i < a.chains.length := (List.getElem?_eq_some_iff.mp hc).1
              obtain ⟨⟨hholds, hext⟩, hblock⟩ := appendByte_grown h.wf (h.holds i c hc) happ
              apply Arena.Inv.update (i := i)
                (c := { c with writer := w, slices := grown c.slices c.writer w }) h hext
              · intro x hx
                exact ⟨c, hc, hx⟩
              · simp only [Op.bytesFor, if_true]
                exact hholds
              · intro s hs
                rcases hblock s hs with hs | hs
                · exact h.oneBlock i c hc s hs
                · exact hs
              · simp [List.getElem?_set_self hlt]
              · intro j hj
                refine ⟨?_, by simp [Op.bytesFor, Ne.symm hj]⟩
                simp [List.getElem?_set_ne (Ne.symm hj)]
              · simp

/-- **Run**: an interleaving leaves each chain with the bytes appended to it. -/
theorem Arena.Inv.run {ops : List Op} {a a' : Arena} {bytes : Nat → Bytes} (h : a.Inv bytes)
    (hrun : a.run ops = some a') : a'.Inv fun i => bytes i ++ appended ops i := by
  induction ops generalizing a bytes with
  | nil =>
      simp only [Arena.run, Option.some.injEq] at hrun
      subst hrun
      simpa [appended] using h
  | cons op ops ih =>
      cases hstep : a.step op with
      | none => simp [Arena.run, hstep] at hrun
      | some b =>
          simp only [Arena.run, hstep, Option.bind_eq_bind, Option.bind_some] at hrun
          have hall := ih (h.step hstep) hrun
          simpa only [appended, List.flatMap_cons, List.append_assoc] using hall

/-! ## What a cursor looks at -/

/-- The payload byte `next` returns, if it returns one. -/
def Cursor.target (p : Pool) (c : Cursor) : Option Nat :=
  if c.budget = 0 then none
  else if c.cur = c.sliceEnd then
    if p.readPtr c.sliceEnd = 0 then none else some (p.readPtr c.sliceEnd)
  else some c.cur

/-- The pointer bytes `has_next` and `next` look at. -/
def Cursor.peeks (c : Cursor) : List Nat :=
  if c.budget = 0 then []
  else if c.cur = c.sliceEnd then
    [c.sliceEnd, c.sliceEnd + 1, c.sliceEnd + 2, c.sliceEnd + 3]
  else []

/-- The cursor after `k` calls of `next`. -/
def Cursor.after (p : Pool) (c : Cursor) : Nat → Cursor
  | 0 => c
  | k + 1 => ((c.after p k).next p).2

theorem Cursor.next_fst (p : Pool) (c : Cursor) :
    (c.next p).1 = ((c.target p).map p.mem).getD 0 := by
  unfold Cursor.next Cursor.target Cursor.take
  split
  · rfl
  · split
    · simp only
      split <;> rfl
    · rfl

theorem Cursor.hasNext_eq (p : Pool) (c : Cursor) : c.hasNext p = (c.target p).isSome := by
  unfold Cursor.hasNext Cursor.target
  split
  · rfl
  · split
    · by_cases h : p.readPtr c.sliceEnd = 0 <;> simp [h]
    · rfl

/-- The payload addresses of a chain in reading order. -/
def slots (slices : List Slice) : List Nat :=
  slices.flatMap fun s => List.range' s.head (sliceSize s.level)

theorem length_slots_cons (s : Slice) (rest : List Slice) :
    (slots (s :: rest)).length = sliceSize s.level + (slots rest).length := by
  simp [slots]

theorem slots_append (l r : List Slice) : slots (l ++ r) = slots l ++ slots r := by
  simp [slots]

/-- The slots hold the chain's bytes, then zeros up to the end of its last slice. -/
theorem ChainAt.mem_slots {p : Pool} {s : Slice} {rest : List Slice} {bs : Bytes}
    {w : SliceWriter} (h : ChainAt p s rest bs w) :
    ∀ k x, (slots (s :: rest))[k]? = some x → p.mem x = bs.getD k 0 := by
  induction h with
  | tail s bs level fits loads zero =>
      intro k x hx
      rw [slots, List.flatMap_cons, List.flatMap_nil, List.append_nil] at hx
      have hsize : k < sliceSize s.level := by
        have hlt := (List.getElem?_eq_some_iff.mp hx).1
        rwa [List.length_range'] at hlt
      rw [List.getElem?_range' hsize, Nat.one_mul] at hx
      cases hx
      rcases Nat.lt_or_ge k bs.length with hk | hk
      · rw [List.getD_eq_getElem?_getD, List.getElem?_eq_getElem hk]
        exact loads k _ (List.getElem?_eq_getElem hk)
      · rw [List.getD_eq_getElem?_getD, List.getElem?_eq_none hk]
        apply zero
        · omega
        · rw [Slice.stop]
          omega
  | link s t rest pre bs w full loads ptr level above next ih =>
      intro k x hx
      rw [slots, List.flatMap_cons] at hx
      rcases Nat.lt_or_ge k (sliceSize s.level) with hk | hk
      · rw [List.getElem?_append_left (by simpa using hk), List.getElem?_range' hk,
          Nat.one_mul] at hx
        cases hx
        have hkp : k < pre.length := by omega
        rw [List.getD_eq_getElem?_getD, List.getElem?_append_left hkp,
          List.getElem?_eq_getElem hkp]
        exact loads k _ (List.getElem?_eq_getElem hkp)
      · rw [List.getElem?_append_right (by simpa using hk), List.length_range'] at hx
        rw [List.getD_eq_getElem?_getD, List.getElem?_append_right (by omega), full,
          ← List.getD_eq_getElem?_getD]
        exact ih _ x hx

/-- Behind the chain's bytes the slots are the room left in its last slice. -/
theorem ChainAt.drop_slots {p : Pool} {s : Slice} {rest : List Slice} {bs : Bytes}
    {w : SliceWriter} (h : ChainAt p s rest bs w) :
    (slots (s :: rest)).drop bs.length = List.range' w.cur (w.sliceEnd - w.cur) := by
  induction h with
  | tail s bs level fits loads zero =>
      simp only [slots, List.flatMap_cons, List.flatMap_nil, List.append_nil, List.drop_range',
        Slice.stop, Nat.add_sub_add_left, Nat.mul_one]
  | link s t rest pre bs w full loads ptr level above next ih =>
      rw [slots, List.flatMap_cons, List.length_append, full, ← List.drop_drop,
        List.drop_left' (by simp)]
      exact ih

theorem ChainAt.length_slots {p : Pool} {s : Slice} {rest : List Slice} {bs : Bytes}
    {w : SliceWriter} (h : ChainAt p s rest bs w) :
    (slots (s :: rest)).length = bs.length + (w.sliceEnd - w.cur) := by
  induction h with
  | tail s bs level fits loads zero =>
      simp only [slots, List.flatMap_cons, List.flatMap_nil, List.append_nil, List.length_range',
        Slice.stop]
      omega
  | link s t rest pre bs w full loads ptr level above next ih =>
      rw [length_slots_cons, ih, List.length_append, full]
      omega

/-- A slot is a payload byte of one of the slices. -/
theorem footprint_of_slots {slices : List Slice} {k x : Nat} (h : (slots slices)[k]? = some x) :
    Footprint slices x := by
  obtain ⟨s, hs, hx⟩ := List.mem_flatMap.mp (List.mem_of_getElem? h)
  obtain ⟨i, hi, rfl⟩ := List.mem_range'.mp hx
  refine ⟨s, hs, by omega, ?_⟩
  rw [Slice.stop]
  omega

/-- The cursor stands before the `k`-th slot of the chain. -/
structure Stands (p : Pool) (slices : List Slice) (c : Cursor) (k : Nat) : Prop where
  at_ : ∃ front s rest bs w i, slices = front ++ s :: rest ∧ ChainAt p s rest bs w ∧
    i ≤ sliceSize s.level ∧ k = (slots front).length + i ∧ c.cur = s.head + i ∧
    c.sliceEnd = s.stop ∧ c.level = s.level

theorem Holds.stands {p : Pool} {head : Nat} {slices : List Slice} {bs : Bytes} {w : SliceWriter}
    (h : Holds p head slices bs w) (budget : Nat) : Stands p slices (cursor head budget) 0 := by
  obtain ⟨⟨rest, rfl, hchain⟩, -⟩ := h
  exact ⟨[], ⟨head, 0⟩, rest, bs, w, 0, rfl, hchain, Nat.zero_le _, rfl, rfl, rfl, rfl⟩

theorem Stands.peeks {p : Pool} {slices : List Slice} {c : Cursor} {k : Nat}
    (h : Stands p slices c k) : ∀ x ∈ c.peeks, Footprint slices x := by
  obtain ⟨front, s, rest, bs, w, i, rfl, hchain, hi, hk, hcur, hend, hlevel⟩ := h.at_
  intro x hx
  unfold Cursor.peeks at hx
  split at hx
  · cases hx
  · split at hx
    · refine ⟨s, by simp, ?_⟩
      rw [hend] at hx
      simp only [List.mem_cons, List.not_mem_nil, or_false] at hx
      unfold Slice.Owns Slice.stop at *
      omega
    · cases hx

/-- Before the last slot `next` reads the slot and moves on. -/
theorem Stands.next {p : Pool} {slices : List Slice} {c : Cursor} {k : Nat}
    (h : Stands p slices c k) (hb : c.budget ≠ 0) (hk : k < (slots slices).length) :
    c.target p = (slots slices)[k]? ∧ Stands p slices (c.next p).2 (k + 1) ∧
      (c.next p).2.budget = c.budget - 1 := by
  obtain ⟨front, s, rest, bs, w, i, rfl, hchain, hi, rfl, hcur, hend, hlevel⟩ := h.at_
  rw [slots_append, List.getElem?_append_right (Nat.le_add_right _ _), Nat.add_sub_cancel_left]
  rw [slots_append, List.length_append, length_slots_cons] at hk
  unfold Cursor.target Cursor.next
  rw [if_neg hb, if_neg hb]
  by_cases hfull : i = sliceSize s.level
  · -- at the end of a slice the chain goes on in the one it points to
    have hstop : c.cur = c.sliceEnd := by rw [hcur, hend, hfull, Slice.stop]
    rw [if_pos hstop, if_pos hstop]
    cases hchain with
    | tail _ _ _ _ _ _ =>
        simp only [slots, List.flatMap_nil, List.length_nil] at hk
        omega
    | link _ t rest' pre bs' _ full loads ptr level above next =>
        have hne : p.readPtr c.sliceEnd ≠ 0 := by
          rw [hend, ptr]
          omega
        have hsize : 0 < sliceSize t.level := by
          rw [level]
          exact sliceSize_pos (nextLevel_lt _)
        simp only [if_neg hne]
        refine ⟨?_, ⟨front ++ [s], t, rest', bs', w, 1, by simp, next, hsize, ?_, ?_, ?_, ?_⟩, rfl⟩
        · rw [hend, ptr, hfull, slots, List.flatMap_cons,
            List.getElem?_append_right (by simp), List.length_range', Nat.sub_self,
            List.flatMap_cons, List.getElem?_append_left (by simpa using hsize),
            List.getElem?_range' hsize]
          simp
        · rw [slots_append, List.length_append, length_slots_cons, hfull]
          simp [slots]
        · simp only [Cursor.take, hend, ptr]
        · simp only [Cursor.take, hend, ptr, hlevel, ← level]
          rfl
        · simp only [Cursor.take, hlevel, level]
  · have hlt : i < sliceSize s.level := by omega
    have hstop : c.cur ≠ c.sliceEnd := by
      rw [hcur, hend, Slice.stop]
      omega
    rw [if_neg hstop, if_neg hstop]
    refine ⟨?_, ⟨front, s, rest, bs, w, i + 1, rfl, hchain, hlt, rfl, ?_, hend, hlevel⟩, rfl⟩
    · rw [hcur, slots, List.flatMap_cons, List.getElem?_append_left (by simpa using hlt),
        List.getElem?_range' hlt, Nat.one_mul]
    · simp only [Cursor.take, hcur]
      omega

/-- Behind the last slot there is nothing to read. -/
theorem Stands.end {p : Pool} {slices : List Slice} {c : Cursor}
    (h : Stands p slices c (slots slices).length) : c.target p = none := by
  obtain ⟨front, s, rest, bs, w, i, rfl, hchain, hi, hk, hcur, hend, hlevel⟩ := h.at_
  rw [slots_append, List.length_append, length_slots_cons] at hk
  have hstop : c.cur = c.sliceEnd := by
    rw [hcur, hend, Slice.stop]
    omega
  unfold Cursor.target
  split
  · rfl
  · cases hchain with
    | tail _ _ _ fits _ zero =>
        have hptr : p.readPtr c.sliceEnd = 0 := by
          rw [hend]
          apply Pool.readPtr_of_store (by decide)
          intro j hj
          rw [zero (s.stop + j) (by rw [Slice.stop]; omega) (by omega)]
          interval_cases j <;> rfl
        rw [if_pos hptr]
    | link _ t rest' pre bs' _ full loads ptr level above next =>
        have hpos : 0 < sliceSize t.level := by
          rw [level]
          exact sliceSize_pos (nextLevel_lt _)
        rw [length_slots_cons] at hk
        omega

theorem Cursor.next_budget_eq_zero {p : Pool} {c : Cursor} (h : c.target p = none) :
    (c.next p).2.budget = 0 := by
  unfold Cursor.target at h
  unfold Cursor.next
  split at h
  · rename_i hb
    rw [if_pos hb]
    exact hb
  · rename_i hb
    rw [if_neg hb]
    split at h
    · rename_i hstop
      split at h
      · rename_i hptr
        simp only [if_pos hstop, if_pos hptr]
      · cases h
    · cases h

theorem Cursor.target_of_budget {p : Pool} {c : Cursor} (h : c.budget = 0) :
    c.target p = none ∧ c.peeks = [] := by
  rw [Cursor.target, if_pos h, Cursor.peeks, if_pos h]
  exact ⟨rfl, rfl⟩

/-- A run of the cursor passes the slots one by one until they or the budget end. -/
theorem Holds.after {p : Pool} {head : Nat} {slices : List Slice} {bs : Bytes} {w : SliceWriter}
    (h : Holds p head slices bs w) (budget k : Nat) :
    (k ≤ min budget (slots slices).length ∧
        Stands p slices ((cursor head budget).after p k) k ∧
        ((cursor head budget).after p k).budget = budget - k) ∨
      (min budget (slots slices).length < k ∧ ((cursor head budget).after p k).budget = 0) := by
  induction k with
  | zero => exact .inl ⟨Nat.zero_le _, h.stands budget, rfl⟩
  | succ k ih =>
      rw [Cursor.after]
      rcases ih with ⟨hk, hstands, hbudget⟩ | ⟨hk, hbudget⟩
      · rcases Nat.lt_or_ge k (min budget (slots slices).length) with hlt | hge
        · obtain ⟨-, hnext, hb⟩ := hstands.next (by omega) (by omega)
          exact .inl ⟨hlt, hnext, by rw [hb, hbudget]; omega⟩
        · refine .inr ⟨by omega, Cursor.next_budget_eq_zero ?_⟩
          by_cases hend : k = (slots slices).length
          · subst hend
            exact hstands.end
          · exact (Cursor.target_of_budget (by omega)).1
      · exact .inr ⟨by omega, Cursor.next_budget_eq_zero (Cursor.target_of_budget hbudget).1⟩

/-- What reading a chain from its head with a given budget gives: its bytes, then the
zeros left in its last slice, all from the chain's own slices. -/
structure ReadsChain (p : Pool) (c : Chain) (bs : Bytes) (budget : Nat) : Prop where
  byte : ∀ k, (((cursor c.head budget).after p k).next p).1 = bs.getD k 0
  hasNext : ∀ k, ((cursor c.head budget).after p k).hasNext p =
    decide (k < min budget (bs.length + (c.writer.sliceEnd - c.writer.cur)))
  tail : ∀ k, bs.length ≤ k → k < min budget (bs.length + (c.writer.sliceEnd - c.writer.cur)) →
    ((cursor c.head budget).after p k).target p = some (c.writer.cur + (k - bs.length))
  own : ∀ k x, (((cursor c.head budget).after p k).target p = some x ∨
    x ∈ ((cursor c.head budget).after p k).peeks) → Footprint c.slices x

theorem Holds.readsChain {p : Pool} {c : Chain} {bs : Bytes}
    (h : Holds p c.head c.slices bs c.writer) {budget : Nat} (hb : bs.length ≤ budget) :
    ReadsChain p c bs budget := by
  obtain ⟨rest, hslices, hchain⟩ := h.chain
  have hlen := hchain.length_slots
  have hmem := hchain.mem_slots
  have hdrop := hchain.drop_slots
  rw [← hslices] at hlen hmem hdrop
  have htarget : ∀ k, ((cursor c.head budget).after p k).target p =
      if k < min budget (slots c.slices).length then (slots c.slices)[k]? else none := by
    intro k
    rcases h.after budget k with ⟨hk, hstands, hbudget⟩ | ⟨hk, hbudget⟩
    · by_cases hlt : k < min budget (slots c.slices).length
      · rw [if_pos hlt]
        exact (hstands.next (by omega) (by omega)).1
      · rw [if_neg hlt]
        by_cases hend : k = (slots c.slices).length
        · subst hend
          exact hstands.end
        · exact (Cursor.target_of_budget (by omega)).1
    · rw [if_neg (by omega)]
      exact (Cursor.target_of_budget hbudget).1
  constructor
  · intro k
    rw [Cursor.next_fst, htarget]
    split
    · rename_i hk
      have hget := List.getElem?_eq_getElem (Nat.lt_of_lt_of_le hk (Nat.min_le_right _ _))
      rw [hget, Option.map_some, Option.getD_some]
      exact hmem k _ hget
    · rw [List.getD_eq_getElem?_getD, List.getElem?_eq_none (by omega)]
      rfl
  · intro k
    rw [Cursor.hasNext_eq, htarget, ← hlen]
    split
    · rename_i hk
      rw [List.getElem?_eq_getElem (Nat.lt_of_lt_of_le hk (Nat.min_le_right _ _)), decide_eq_true hk]
      rfl
    · rename_i hk
      rw [decide_eq_false hk]
      rfl
  · intro k hge hlt
    rw [htarget, if_pos (by rw [hlen]; exact hlt)]
    have hget : (slots c.slices)[k]? = ((slots c.slices).drop bs.length)[k - bs.length]? := by
      rw [List.getElem?_drop]
      congr 1
      omega
    rw [hget, hdrop, List.getElem?_range' (by omega), Nat.one_mul]
  · intro k x hx
    rcases hx with hx | hx
    · rw [htarget] at hx
      split at hx
      · exact footprint_of_slots hx
      · cases hx
    · rcases h.after budget k with ⟨-, hstands, -⟩ | ⟨-, hbudget⟩
      · exact hstands.peeks x hx
      · rw [(@Cursor.target_of_budget p _ hbudget).2] at hx
        cases hx

/-- The slices of a chain lie one above the other. -/
theorem ChainAt.pairwise {p : Pool} {s : Slice} {rest : List Slice} {bs : Bytes}
    {w : SliceWriter} (h : ChainAt p s rest bs w) :
    (s :: rest).Pairwise fun s t => ∀ x, s.Owns x → ¬ t.Owns x := by
  induction h with
  | tail => exact List.pairwise_singleton _ _
  | link s t rest pre bs w full loads ptr level above next ih =>
      apply List.pairwise_cons.mpr
      refine ⟨?_, ih⟩
      intro u hu x hx hux
      have hle := next.head_le u hu
      unfold Slice.Owns at hx hux
      omega

/-- The last slice of a chain, which its writer fills. -/
theorem Holds.exists_tail {p : Pool} {head : Nat} {slices : List Slice} {bs : Bytes}
    {w : SliceWriter} (h : Holds p head slices bs w) :
    ∃ s ∈ slices, s.head ≤ w.cur ∧ w.cur ≤ w.sliceEnd ∧ s.stop = w.sliceEnd := by
  obtain ⟨⟨rest, rfl, hchain⟩, -⟩ := h
  obtain ⟨t, ht, -, -, hstop, hcur, hend⟩ := hchain.exists_last
  exact ⟨t, ht, hcur, hend, hstop⟩

/-- **Chains stay apart** under every interleaving of starts and appends. -/
theorem run_keeps_chains_apart {ops : List Op} {a : Arena} (h : Arena.run {} ops = some a) :
    ((a.chains.flatMap Chain.slices).Pairwise fun s t => ∀ x, s.Owns x → ¬ t.Owns x) ∧
      (∀ s ∈ a.chains.flatMap Chain.slices, ∃ b < a.pool.nBlocks,
        ∀ x, s.Owns x → x / kBlockSize = b) ∧
      ∀ i c, a.chains[i]? = some c →
        (appended ops i).length ≤ c.writer.cur ∧
        (∃ s ∈ c.slices, s.head ≤ c.writer.cur ∧ c.writer.cur ≤ c.writer.sliceEnd ∧
          s.stop = c.writer.sliceEnd) ∧
        ∀ budget, (appended ops i).length ≤ budget →
          ReadsChain a.pool c (appended ops i) budget := by
  have hinv : a.Inv fun i => appended ops i := by
    simpa using Arena.Inv.empty.run h
  refine ⟨?_, ?_, ?_⟩
  · apply List.pairwise_flatMap.mpr
    constructor
    · intro c hc
      obtain ⟨i, hi⟩ := List.getElem?_of_mem hc
      obtain ⟨rest, hslices, hchain⟩ := (hinv.holds i c hi).chain
      rw [hslices]
      exact hchain.pairwise
    · apply List.pairwise_iff_getElem.mpr
      intro i j hi hj hij s hs t ht x hsx htx
      exact hinv.disjoint i j _ _ (by omega) (List.getElem?_eq_getElem hi)
        (List.getElem?_eq_getElem hj) x ⟨s, hs, hsx⟩ ⟨t, ht, htx⟩
  · intro s hs
    obtain ⟨c, hc, hsc⟩ := List.mem_flatMap.mp hs
    obtain ⟨i, hi⟩ := List.getElem?_of_mem hc
    have hblock := hinv.oneBlock i c hi s hsc
    have hstop : s.head ≤ s.stop := Nat.le_add_right _ _
    have hin := (hinv.holds i c hi).inside (s.stop + 3) ⟨s, hsc, by omega, by omega⟩
    have harena := hinv.wf.inBlocks
    refine ⟨s.head / kBlockSize, ?_, ?_⟩
    · rw [hblock]
      apply Nat.div_lt_of_lt_mul
      rw [Pool.arenaBytes, Nat.mul_comm] at harena
      omega
    · intro x hx
      unfold Slice.OneBlock at hblock
      unfold Slice.Owns at hx
      simp only [kBlockSize] at hblock ⊢
      omega
  · intro i c hi
    have hholds := hinv.holds i c hi
    exact ⟨hholds.length_le_cur, hholds.exists_tail, fun budget hb => hholds.readsChain hb⟩

/-- Two chains whose appends alternate, the first one past its first slice. -/
def twoChains : List Op :=
  [.start, .start, .append 0 1, .append 1 9, .append 0 2, .append 0 3, .append 1 8, .append 0 4,
    .append 0 5, .append 0 6]

theorem run_keeps_chains_apart_twoChains :
    ∃ a, Arena.run {} twoChains = some a ∧
      ∃ c, a.chains[0]? = some c ∧ ReadsChain a.pool c [1, 2, 3, 4, 5, 6] 7 := by
  have hsome : (Arena.run {} twoChains).isSome := by decide +kernel
  obtain ⟨a, ha⟩ := Option.isSome_iff_exists.mp hsome
  have hchain : ((Arena.run {} twoChains).bind fun a => a.chains[0]?).isSome := by decide +kernel
  rw [ha] at hchain
  obtain ⟨c, hc⟩ := Option.isSome_iff_exists.mp hchain
  obtain ⟨-, -, hall⟩ := run_keeps_chains_apart ha
  have hbytes : appended twoChains 0 = [1, 2, 3, 4, 5, 6] := by decide
  obtain ⟨-, -, hreads⟩ := hall 0 c hc
  rw [hbytes] at hreads
  exact ⟨a, ha, c, hc, hreads 7 (by decide)⟩

end Snii.Writer.CompactPostingPool
