import Snii.Encoding.ByteSource
import Snii.Lib.CheckedArray

/-!
# A source as a slice and a position

`byte_source.h` as it is laid out: the slice stays whole and a position moves through
it, every byte read through a checked index.  A reader over the bytes not read yet says
the same with less; `Simulates` carries what is proved of readers over to cursors, and
with it the two facts that make every read safe: the position only moves forward and
never passes the end of the slice.
-/

namespace Snii.Encoding.ByteCursor

open Snii.Lib.ByteReader Snii.Lib.CheckedArray Snii.Common Snii.Encoding.Varint
open Snii.Encoding.ByteSource

/-- A function of a source: of its slice and its position. -/
abbrev Cursor (α : Type) := ReaderT Bytes (StateT Nat (Except Status)) α

variable {α β γ δ : Type}

/-! ## Primitives -/

/-- A computation that does not read. -/
def Cursor.lift (r : Result α) : Cursor α := fun _ pos => do
  let x ← r
  pure (x, pos)

def position : Cursor Nat := fun _ pos => .ok (pos, pos)

/-- `slice_from`: a view of the slice, wherever the position is. -/
def sliceFrom (start len : Nat) : Cursor Bytes := fun s pos => do
  let view ← subslice s start len
  pure (view, pos)

def getU8 : Cursor Nat := fun s pos =>
  if s.length - pos < 1 then .error (.corruption "get_u8 overrun")
  else do
    let b ← load .outOfBounds s pos
    pure (b.toNat, pos + 1)

/-- The shift loop of the fixed-width fields. -/
def fixedLoop (s : Bytes) (pos : Nat) : Nat → Nat → Nat → Result Nat
  | 0, _, r => .ok r
  | n + 1, i, r => do
      let b ← load .outOfBounds s (pos + i)
      fixedLoop s pos n (i + 1) (r + b.toNat * 256 ^ i)

def getFixed (w : Nat) (overrun : String) : Cursor Nat := fun s pos =>
  if s.length - pos < w then .error (.corruption overrun)
  else do
    let r ← fixedLoop s pos w 0 0
    pure (r, pos + w)

def getFixed32 : Cursor Nat := getFixed 4 "get_fixed32 overrun"

/-- The loop of `decode_varint64` with the given number of bytes before the end. -/
def varintLoop (s : Bytes) : Nat → Nat → Nat → Nat → Result (Nat × Nat)
  | 0, _, _, _ => .error (.corruption "varint truncated")
  | n + 1, pos, shift, acc => do
      let b ← load .outOfBounds s pos
      let acc := (acc + b.toNat % 128 * 2 ^ shift) % 2 ^ 64
      if b.toNat < 128 then .ok (acc, pos + 1)
      else if shift + 7 ≥ 64 then .error (.corruption "varint64 overflow")
      else varintLoop s n (pos + 1) (shift + 7) acc

/-- A varint. -/
def getVarint64 : Cursor Nat := fun s pos => varintLoop s (s.length - pos) pos 0 0

/-- A varint that must fit 32 bits. -/
def getVarint32 : Cursor Nat := do
  let v ← getVarint64
  if v > 4294967295 then throw (.corruption "varint32 overflow") else pure v

/-- The next `n` bytes. -/
def getBytes (n : Nat) : Cursor Bytes := fun s pos =>
  if s.length - pos < n then .error (.corruption "get_bytes overrun")
  else do
    let view ← subslice s pos n
    pure (view, pos + n)

/-- The value and the bytes the position has passed. -/
def consumed (c : Cursor α) : Cursor (α × Bytes) := do
  let start ← position
  let x ← c
  let pos ← position
  let framed ← sliceFrom start (pos - start)
  pure (x, framed)

/-- `n` items in a row. -/
def readN (c : Cursor α) : Nat → Cursor (List α)
  | 0 => pure []
  | n + 1 => do
      let x ← c
      let xs ← readN c n
      pure (x :: xs)

/-- Reads a whole slice: the position must end at its end. -/
def parseAll (c : Cursor α) (trailing : String) (slice : Bytes) : Result α := do
  let (x, pos) ← c slice 0
  if pos ≠ slice.length then .error (.corruption trailing) else .ok x

/-! ## Simulation -/

/-- The cursor does on the slice what the reader does on the bytes from the position on:
it fails with the same status, or its value is related to the reader's, and the position
moves forward inside the slice to the bytes the reader leaves. -/
structure Simulates (R : α → β → Prop) (c : Cursor α) (p : Source β) : Prop where
  error : ∀ {s : Bytes} {pos : Nat} {e : Status}, pos ≤ s.length →
    p.run (s.drop pos) = .error e → c s pos = .error e
  ok : ∀ {s : Bytes} {pos : Nat} {y : β} {rest : Bytes}, pos ≤ s.length →
    p.run (s.drop pos) = .ok (y, rest) →
    ∃ x pos', c s pos = .ok (x, pos') ∧ R x y ∧ pos ≤ pos' ∧ pos' ≤ s.length ∧
      rest = s.drop pos'

variable {R : α → β → Prop} {S : γ → δ → Prop} {c : Cursor α} {p : Source β}

theorem Simulates.pure {x : α} {y : β} (h : R x y) :
    Simulates R (Pure.pure x : Cursor α) (Pure.pure y : Source β) where
  error _ hrun := by cases hrun
  ok hpos hrun := by
    cases hrun
    exact ⟨x, _, rfl, h, Nat.le_refl _, hpos, rfl⟩

theorem Simulates.throw (e : Status) :
    Simulates R (MonadExcept.throw e : Cursor α) (MonadExcept.throw e : Source β) where
  error _ hrun := by
    cases hrun
    rfl
  ok _ hrun := by cases hrun

theorem Simulates.bind {f : α → Cursor γ} {g : β → Source δ} (hc : Simulates R c p)
    (hf : ∀ x y, R x y → Simulates S (f x) (g y)) : Simulates S (c >>= f) (p >>= g) where
  error := by
    intro s pos e hpos hrun
    rw [StateT.run_bind] at hrun
    show (c s pos >>= fun r => f r.1 s r.2) = _
    cases hp : p.run (s.drop pos) with
    | error e' =>
        rw [hp] at hrun
        cases hrun
        rw [hc.error hpos hp]
        rfl
    | ok r =>
        obtain ⟨x, pos', hrun', hR, -, hend, hrest⟩ := hc.ok hpos hp
        rw [hp, ok_bind, hrest] at hrun
        rw [hrun', ok_bind]
        exact (hf x r.1 hR).error hend hrun
  ok := by
    intro s pos z rest hpos hrun
    show ∃ w pos', (c s pos >>= fun r => f r.1 s r.2) = _ ∧ _
    obtain ⟨y, mid, hp, hg⟩ := run_bind_eq_ok.mp hrun
    obtain ⟨x, pos', hrun', hR, hle, hend, rfl⟩ := hc.ok hpos hp
    obtain ⟨w, pos'', hrun'', hS, hle', hend', hrest⟩ := (hf x y hR).ok hend hg
    exact ⟨w, pos'', by rw [hrun', ok_bind, hrun''], hS, Nat.le_trans hle hle', hend', hrest⟩

theorem Simulates.ite {q : Prop} [Decidable q] {c' : Cursor α} {p' : Source β}
    (hc : q → Simulates R c p) (hc' : ¬ q → Simulates R c' p') :
    Simulates R (if q then c else c') (if q then p else p') := by
  by_cases hq : q
  · rw [if_pos hq, if_pos hq]
    exact hc hq
  · rw [if_neg hq, if_neg hq]
    exact hc' hq

theorem Simulates.mono {R' : α → β → Prop} (hc : Simulates R c p) (h : ∀ x y, R x y → R' x y) :
    Simulates R' c p where
  error := hc.error
  ok hpos hrun := by
    obtain ⟨x, pos', hrun', hR, hrest⟩ := hc.ok hpos hrun
    exact ⟨x, pos', hrun', h _ _ hR, hrest⟩

/-- A last step of the reader alone. -/
theorem Simulates.map_right {R' : α → δ → Prop} (hc : Simulates R c p) {g : β → δ}
    (h : ∀ x y, R x y → R' x (g y)) :
    Simulates R' c (p >>= fun y => Pure.pure (g y)) := by
  rw [← bind_pure c]
  apply hc.bind
  intro x y hR
  exact Simulates.pure (h x y hR)

/-- Computations that do not read, with related values or the same status. -/
theorem Simulates.lift {r : Result α} {r' : Result β}
    (herror : ∀ e, r' = .error e → r = .error e)
    (hok : ∀ y, r' = .ok y → ∃ x, r = .ok x ∧ R x y) :
    Simulates R (Cursor.lift r) (StateT.lift r' : Source β) where
  error := by
    intro s pos e _ hrun
    cases r' with
    | error e' =>
        cases hrun
        show (r >>= fun x => Except.ok (x, pos)) = _
        rw [herror e rfl]
        rfl
    | ok y => cases hrun
  ok := by
    intro s pos y rest hpos hrun
    cases r' with
    | error e' => cases hrun
    | ok y' =>
        cases hrun
        obtain ⟨x, rfl, hR⟩ := hok y rfl
        exact ⟨x, pos, rfl, hR, Nat.le_refl pos, hpos, rfl⟩

theorem Simulates.lift_eq (r : Result α) :
    Simulates Eq (Cursor.lift r) (StateT.lift r : Source α) :=
  Simulates.lift (fun _ h => h) fun y h => ⟨y, h, rfl⟩

/-- What a cursor that succeeds has read. -/
theorem Simulates.of_ok (hc : Simulates R c p) {s : Bytes} {pos pos' : Nat} {x : α}
    (hpos : pos ≤ s.length) (h : c s pos = .ok (x, pos')) :
    ∃ y, p.run (s.drop pos) = .ok (y, s.drop pos') ∧ R x y ∧ pos ≤ pos' ∧ pos' ≤ s.length := by
  cases hp : p.run (s.drop pos) with
  | error e =>
      rw [hc.error hpos hp] at h
      cases h
  | ok r =>
      obtain ⟨x', mid, hrun, hR, hle, hend, hrest⟩ := hc.ok hpos hp
      rw [hrun] at h
      cases h
      exact ⟨r.1, by rw [← hrest], hR, hle, hend⟩

/-- What a reader returns is related to something. -/
theorem Simulates.yields (hc : Simulates R c p) : Yields p fun y => ∃ x, R x y := by
  intro bs y rest hrun
  obtain ⟨x, -, -, hR, -⟩ := hc.ok (Nat.zero_le bs.length) hrun
  exact ⟨x, hR⟩

/-- **No status of its own**: a cursor fails as the reader does. -/
theorem Simulates.avoids (hc : Simulates R c p) {e : Status} (hp : Avoids p e) {s : Bytes}
    {pos : Nat} (hpos : pos ≤ s.length) : c s pos ≠ .error e := by
  intro h
  cases hrun : p.run (s.drop pos) with
  | error e' =>
      rw [hc.error hpos hrun] at h
      cases h
      exact hp _ hrun
  | ok r =>
      obtain ⟨x', mid, hrun', -⟩ := hc.ok hpos hrun
      rw [hrun'] at h
      cases h

theorem Simulates.readN {c : Cursor α} {p : Source α} (h : Simulates Eq c p) (n : Nat) :
    Simulates Eq (readN c n) (Lib.ByteReader.readN p n) := by
  induction n with
  | zero => exact Simulates.pure rfl
  | succ n ih =>
      apply h.bind
      rintro x _ rfl
      apply ih.bind
      rintro xs _ rfl
      exact Simulates.pure rfl

theorem Simulates.consumed {c : Cursor α} {p : Source α} (h : Simulates Eq c p) :
    Simulates Eq (consumed c) (Lib.ByteReader.consumed p) where
  error := by
    intro s pos e hpos hrun
    have hp : p.run (s.drop pos) = .error e := by
      simp only [Lib.ByteReader.consumed, StateT.run] at hrun ⊢
      cases heq : p (s.drop pos) with
      | error e' =>
          rw [heq] at hrun
          cases hrun
          rfl
      | ok r =>
          rw [heq] at hrun
          cases hrun
    show (c s pos >>= fun r => _) = _
    rw [h.error hpos hp]
    rfl
  ok := by
    intro s pos y rest hpos hrun
    obtain ⟨x, hp, rfl⟩ : ∃ x, p.run (s.drop pos) = .ok (x, rest) ∧
        y = (x, (s.drop pos).take ((s.drop pos).length - rest.length)) := by
      simp only [Lib.ByteReader.consumed, StateT.run] at hrun ⊢
      cases heq : p (s.drop pos) with
      | error e' =>
          rw [heq] at hrun
          cases hrun
      | ok r =>
          rw [heq] at hrun
          cases hrun
          exact ⟨r.1, rfl, rfl⟩
    obtain ⟨_, pos', hrun', rfl, hle, hend, rfl⟩ := h.ok hpos hp
    refine ⟨_, pos', ?_, rfl, hle, hend, rfl⟩
    have hview : subslice s pos (pos' - pos) = .ok ((s.drop pos).take (pos' - pos)) := by
      rw [subslice, if_neg (by omega)]
    have hlen : (s.drop pos).length - (s.drop pos').length = pos' - pos := by
      rw [List.length_drop, List.length_drop]
      omega
    show (c s pos >>= fun r => (subslice s pos (r.2 - pos) >>= fun view =>
      Except.ok (view, r.2)) >>= fun v => Except.ok ((r.1, v.1), v.2)) = _
    rw [hrun', ok_bind, hview, ok_bind, ok_bind, hlen]

/-- The two ways to read a whole slice. -/
theorem Simulates.parseAll (h : Simulates R c p) (trailing : String) (slice : Bytes) :
    (∀ e, ByteSource.parseAll p trailing slice = .error e →
      ByteCursor.parseAll c trailing slice = .error e) ∧
    ∀ y, ByteSource.parseAll p trailing slice = .ok y →
      ∃ x, ByteCursor.parseAll c trailing slice = .ok x ∧ R x y := by
  rw [ByteSource.parseAll, ByteCursor.parseAll]
  cases hp : p.run slice with
  | error e =>
      have hrun := h.error (Nat.zero_le slice.length) hp
      rw [hrun]
      constructor
      · intro e' he
        cases he
        rfl
      · intro y hy
        cases hy
  | ok r =>
      obtain ⟨x, pos', hrun, hR, -, hend, hrest⟩ := h.ok (Nat.zero_le slice.length) hp
      have hiff : pos' = slice.length ↔ r.2 = [] := by
        rw [hrest, List.drop_eq_nil_iff]
        omega
      rw [hrun, ok_bind, ok_bind]
      simp only
      by_cases hdone : r.2 = []
      · rw [if_neg (not_not.mpr hdone), if_neg (not_not.mpr (hiff.mpr hdone))]
        constructor
        · intro e he
          cases he
        · intro y hy
          cases hy
          exact ⟨x, rfl, hR⟩
      · rw [if_pos hdone, if_pos (fun h => hdone (hiff.mp h))]
        constructor
        · intro e he
          cases he
          rfl
        · intro y hy
          cases hy

theorem Simulates.parseAll_eq {f : β → α} (h : Simulates (fun x y => x = f y) c p)
    (trailing : String) (slice : Bytes) :
    ByteCursor.parseAll c trailing slice =
      ByteSource.parseAll p trailing slice >>= fun y => .ok (f y) := by
  obtain ⟨herror, hok⟩ := h.parseAll trailing slice
  cases hp : ByteSource.parseAll p trailing slice with
  | error e => exact herror e hp
  | ok y =>
      obtain ⟨x, hx, rfl⟩ := hok y hp
      exact hx

/-! ## The primitives -/

theorem simulates_getU8 : Simulates Eq getU8 ByteSource.getU8 where
  error := by
    intro s pos e hpos hrun
    cases hdrop : s.drop pos with
    | nil =>
        rw [hdrop] at hrun
        cases hrun
        have := List.drop_eq_nil_iff.mp hdrop
        rw [getU8, if_pos (by omega)]
    | cons b rest =>
        rw [hdrop] at hrun
        cases hrun
  ok := by
    intro s pos y rest hpos hrun
    cases hdrop : s.drop pos with
    | nil =>
        rw [hdrop] at hrun
        cases hrun
    | cons b tail =>
        rw [hdrop] at hrun
        cases hrun
        have hlt : pos < s.length := by
          have := congrArg List.length hdrop
          rw [List.length_drop, List.length_cons] at this
          omega
        rw [List.drop_eq_getElem_cons hlt] at hdrop
        refine ⟨_, pos + 1, ?_, rfl, by omega, by omega, (List.cons.inj hdrop).2.symm⟩
        rw [getU8, if_neg (by omega), load_ok hlt, ok_bind, (List.cons.inj hdrop).1]
        rfl

theorem fixedLoop_eq {s : Bytes} {pos n i : Nat} (h : pos + i + n ≤ s.length) (r : Nat) :
    fixedLoop s pos n i r = .ok (r + 256 ^ i * leValue ((s.drop (pos + i)).take n)) := by
  induction n generalizing i r with
  | zero => rw [fixedLoop, List.take_zero, leValue, Nat.mul_zero, Nat.add_zero]
  | succ n ih =>
      have hlt : pos + i < s.length := by omega
      rw [fixedLoop, load_ok hlt, ok_bind, ih (by omega), List.drop_eq_getElem_cons hlt,
        List.take_succ_cons, leValue, Nat.mul_add, ← Nat.mul_assoc, ← Nat.pow_succ,
        Nat.mul_comm s[pos + i].toNat, Nat.add_assoc, Nat.add_assoc pos]

theorem simulates_getFixed (w : Nat) (overrun : String) :
    Simulates Eq (getFixed w overrun) (ByteSource.getFixed w overrun) where
  error := by
    intro s pos e hpos hrun
    rw [StateT.run, ByteSource.getFixed, List.length_drop] at hrun
    rw [getFixed]
    by_cases hlen : s.length - pos < w
    · rw [if_pos hlen] at hrun ⊢
      cases hrun
      rfl
    · rw [if_neg hlen] at hrun
      cases hrun
  ok := by
    intro s pos y rest hpos hrun
    rw [StateT.run, ByteSource.getFixed, List.length_drop] at hrun
    rw [getFixed]
    by_cases hlen : s.length - pos < w
    · rw [if_pos hlen] at hrun
      cases hrun
    · rw [if_neg hlen] at hrun ⊢
      cases hrun
      rw [fixedLoop_eq (by omega), ok_bind]
      refine ⟨_, pos + w, rfl, ?_, by omega, by omega, by rw [List.drop_drop]⟩
      rw [Nat.pow_zero, Nat.one_mul, Nat.zero_add, Nat.add_zero]

theorem simulates_getFixed32 : Simulates Eq getFixed32 ByteSource.getFixed32 :=
  simulates_getFixed _ _

theorem simulates_getBytes (n : Nat) : Simulates Eq (getBytes n) (ByteSource.getBytes n) where
  error := by
    intro s pos e hpos hrun
    rw [StateT.run, ByteSource.getBytes, List.length_drop] at hrun
    rw [getBytes]
    by_cases hlen : s.length - pos < n
    · rw [if_pos hlen] at hrun ⊢
      cases hrun
      rfl
    · rw [if_neg hlen] at hrun
      cases hrun
  ok := by
    intro s pos y rest hpos hrun
    rw [StateT.run, ByteSource.getBytes, List.length_drop] at hrun
    rw [getBytes]
    by_cases hlen : s.length - pos < n
    · rw [if_pos hlen] at hrun
      cases hrun
    · rw [if_neg hlen] at hrun ⊢
      cases hrun
      rw [subslice, if_neg (by omega), ok_bind]
      exact ⟨_, pos + n, rfl, rfl, by omega, by omega, by rw [List.drop_drop]⟩

/-- The varint loop, byte by byte. -/
theorem varintLoop_eq {s : Bytes} {n pos : Nat} (h : n = s.length - pos) (hpos : pos ≤ s.length)
    (shift acc : Nat) :
    (∀ e, decodeVarintLoop shift acc (s.drop pos) = .error e →
      varintLoop s n pos shift acc = .error e) ∧
    ∀ v rest, decodeVarintLoop shift acc (s.drop pos) = .ok (v, rest) →
      ∃ pos', varintLoop s n pos shift acc = .ok (v, pos') ∧ pos ≤ pos' ∧ pos' ≤ s.length ∧
        rest = s.drop pos' := by
  induction n generalizing pos shift acc with
  | zero =>
      rw [List.drop_eq_nil_of_le (by omega)]
      constructor
      · intro e he
        cases he
        rfl
      · intro v rest hv
        cases hv
  | succ n ih =>
      have hlt : pos < s.length := by omega
      rw [List.drop_eq_getElem_cons hlt, decodeVarintLoop, varintLoop, load_ok hlt, ok_bind]
      by_cases hlast : s[pos].toNat < 128
      · rw [if_pos hlast, if_pos hlast]
        constructor
        · intro e he
          cases he
        · intro v rest hv
          cases hv
          exact ⟨pos + 1, rfl, by omega, by omega, rfl⟩
      · rw [if_neg hlast, if_neg hlast]
        by_cases hshift : shift + 7 ≥ 64
        · rw [if_pos hshift, if_pos hshift]
          constructor
          · intro e he
            cases he
            rfl
          · intro v rest hv
            cases hv
        · rw [if_neg hshift, if_neg hshift]
          obtain ⟨herror, hok⟩ := @ih (pos + 1) (by omega) (by omega) (shift + 7)
            ((acc + s[pos].toNat % 128 * 2 ^ shift) % 2 ^ 64)
          refine ⟨herror, fun v rest hv => ?_⟩
          obtain ⟨pos', hrun, hle, hend, hrest⟩ := hok v rest hv
          exact ⟨pos', hrun, by omega, hend, hrest⟩

theorem simulates_getVarint64 : Simulates Eq getVarint64 ByteSource.getVarint64 where
  error hpos hrun := (varintLoop_eq rfl hpos 0 0).1 _ hrun
  ok hpos hrun := by
    obtain ⟨pos', hrun', hle, hend, hrest⟩ := (varintLoop_eq rfl hpos 0 0).2 _ _ hrun
    exact ⟨_, pos', hrun', rfl, hle, hend, hrest⟩

theorem simulates_getVarint32 : Simulates Eq getVarint32 ByteSource.getVarint32 := by
  apply simulates_getVarint64.bind
  rintro v _ rfl
  exact Simulates.ite (fun _ => Simulates.throw _) fun _ => Simulates.pure rfl

end Snii.Encoding.ByteCursor
