import Mathlib.Algebra.Order.Ring.Nat
import Mathlib.Data.List.Lex
import Mathlib.Order.Defs.LinearOrder

/-!
# Byte strings

The order of bytes makes `List UInt8` a linear order (lexicographic, bytes
unsigned).  Little-endian numerals of a fixed width, and readers: a reader
consumes a prefix of the bytes it is given, and `Reads p bs x` says that on any
input that starts with `bs` it returns `x` and leaves the rest.  The rules for
`Reads` follow the reader's own structure.
-/

namespace Snii.Lib.ByteReader

abbrev Bytes := List UInt8

instance byteLinearOrder : LinearOrder UInt8 where
  le_refl := UInt8.le_refl
  le_trans := fun _ _ _ => UInt8.le_trans
  le_antisymm := fun _ _ => UInt8.le_antisymm
  le_total := UInt8.le_total
  lt_iff_le_not_ge := fun a b => by
    simp only [UInt8.lt_iff_toNat_lt, UInt8.le_iff_toNat_le]
    omega
  toDecidableLE := inferInstance
  toDecidableEq := inferInstance
  toDecidableLT := inferInstance
  min_def := fun _ _ => rfl
  max_def := fun _ _ => rfl

/-! ## Little-endian numerals -/

/-- The low `w` base-256 digits of `n`, least significant first. -/
def leBytes : Nat → Nat → Bytes
  | 0, _ => []
  | w + 1, n => UInt8.ofNat (n % 256) :: leBytes w (n / 256)

/-- The number a little-endian digit string stands for. -/
def leValue : Bytes → Nat
  | [] => 0
  | b :: bs => b.toNat + 256 * leValue bs

@[simp] theorem length_leBytes (w n : Nat) : (leBytes w n).length = w := by
  induction w generalizing n with
  | zero => rfl
  | succ w ih => simp [leBytes, ih]

theorem leValue_leBytes {w n : Nat} (h : n < 256 ^ w) : leValue (leBytes w n) = n := by
  induction w generalizing n with
  | zero =>
      have : n = 0 := by simpa using h
      simp [leBytes, leValue, this]
  | succ w ih =>
      have hdiv : n / 256 < 256 ^ w := by
        rw [Nat.pow_succ] at h
        exact Nat.div_lt_of_lt_mul (by omega)
      simp only [leBytes, leValue, ih hdiv, UInt8.toNat_ofNat', Nat.reducePow]
      omega

theorem leValue_lt (bs : Bytes) : leValue bs < 256 ^ bs.length := by
  induction bs with
  | nil => simp [leValue]
  | cons b bs ih =>
      have hb := b.toNat_lt
      rw [leValue, List.length_cons, Nat.pow_succ]
      omega

theorem leValue_append (as bs : Bytes) :
    leValue (as ++ bs) = leValue as + 256 ^ as.length * leValue bs := by
  induction as with
  | nil => simp [leValue]
  | cons a as ih =>
      rw [List.cons_append, leValue, ih, leValue, List.length_cons, Nat.pow_succ, Nat.mul_add,
        Nat.add_assoc, ← Nat.mul_assoc, Nat.mul_comm (256 ^ as.length)]

theorem leValue_leBytes_mod (w n : Nat) : leValue (leBytes w n) = n % 256 ^ w := by
  induction w generalizing n with
  | zero => simp [leBytes, leValue, Nat.mod_one]
  | succ w ih =>
      simp only [leBytes, leValue, ih, UInt8.toNat_ofNat', Nat.reducePow, Nat.mod_mod]
      rw [Nat.pow_succ, Nat.mul_comm (256 ^ w), Nat.mod_mul]

/-- Dropping digits divides. -/
theorem leValue_drop (k : Nat) (bs : Bytes) : leValue (bs.drop k) = leValue bs / 256 ^ k := by
  by_cases hk : k ≤ bs.length
  · have htake : (bs.take k).length = k := by simp [hk]
    have hlt : leValue (bs.take k) < 256 ^ k := by
      have := leValue_lt (bs.take k)
      rwa [htake] at this
    conv_rhs => rw [← List.take_append_drop k bs, leValue_append, htake]
    rw [Nat.add_mul_div_left _ _ (Nat.pos_of_ne_zero (by simp)), Nat.div_eq_of_lt hlt,
      Nat.zero_add]
  · have hle : 256 ^ bs.length ≤ 256 ^ k := Nat.pow_le_pow_right (by omega) (by omega)
    rw [List.drop_eq_nil_of_le (by omega), leValue,
      Nat.div_eq_of_lt (Nat.lt_of_lt_of_le (leValue_lt bs) hle)]

/-- Keeping digits is a remainder. -/
theorem leValue_take (k : Nat) (bs : Bytes) : leValue (bs.take k) = leValue bs % 256 ^ k := by
  by_cases hk : k ≤ bs.length
  · have htake : (bs.take k).length = k := by simp [hk]
    have hlt : leValue (bs.take k) < 256 ^ k := by
      have := leValue_lt (bs.take k)
      rwa [htake] at this
    conv_rhs => rw [← List.take_append_drop k bs, leValue_append, htake]
    rw [Nat.add_mul_mod_self_left, Nat.mod_eq_of_lt hlt]
  · have hle : 256 ^ bs.length ≤ 256 ^ k := Nat.pow_le_pow_right (by omega) (by omega)
    rw [List.take_of_length_le (by omega),
      Nat.mod_eq_of_lt (Nat.lt_of_lt_of_le (leValue_lt bs) hle)]

/-! ## Readers -/

/-- A reader that may fail, over the bytes not read yet. -/
abbrev Reader (ε α : Type) := StateT Bytes (Except ε) α

variable {ε α β : Type}

/-- Reading any input that starts with `bs` returns `x` and leaves the rest. -/
def Reads (p : Reader ε α) (bs : Bytes) (x : α) : Prop :=
  ∀ rest, p.run (bs ++ rest) = .ok (x, rest)

theorem Reads.pure (x : α) : Reads (Pure.pure x : Reader ε α) [] x :=
  fun _ => rfl

theorem Reads.bind {p : Reader ε α} {f : α → Reader ε β} {bs cs : Bytes} {x : α} {y : β}
    (hp : Reads p bs x) (hf : Reads (f x) cs y) : Reads (p >>= f) (bs ++ cs) y := by
  intro rest
  have h1 := hp (cs ++ rest)
  have h2 := hf rest
  rw [List.append_assoc, StateT.run_bind, h1]
  exact h2

/-- What follows a step that reads `bs` runs on the rest of the input. -/
theorem Reads.run_bind {p : Reader ε α} {f : α → Reader ε β} {bs : Bytes} {x : α}
    (hp : Reads p bs x) (rest : Bytes) : (p >>= f).run (bs ++ rest) = (f x).run rest := by
  have h := hp rest
  rw [StateT.run_bind, h]
  rfl

theorem Reads.congr {p : Reader ε α} {bs cs : Bytes} {x y : α} (hp : Reads p bs x)
    (hbs : bs = cs) (hx : x = y) : Reads p cs y := by
  subst hbs
  subst hx
  exact hp

/-- A last step that reads nothing. -/
theorem Reads.bind_nil {p : Reader ε α} {f : α → Reader ε β} {bs : Bytes} {x : α} {y : β}
    (hp : Reads p bs x) (hf : Reads (f x) [] y) : Reads (p >>= f) bs y :=
  (hp.bind hf).congr (List.append_nil bs) rfl

/-- A check that passes reads nothing. -/
theorem Reads.if_neg {c : Prop} [Decidable c] {p q : Reader ε α} {bs : Bytes} {x : α}
    (hc : ¬ c) (hq : Reads q bs x) : Reads (if c then p else q) bs x := by
  simp only [hc, if_false]
  exact hq

theorem Reads.if_pos {c : Prop} [Decidable c] {p q : Reader ε α} {bs : Bytes} {x : α}
    (hc : c) (hp : Reads p bs x) : Reads (if c then p else q) bs x := by
  simp only [hc, if_true]
  exact hp

/-- A computation that does not read. -/
def ofResult (r : Except ε α) : Reader ε α := fun bs => r.map fun x => (x, bs)

theorem Reads.ofResult {r : Except ε α} {x : α} (h : r = .ok x) : Reads (ofResult r) [] x := by
  intro rest
  rw [h]
  rfl

/-- The value and the bytes it was read from. -/
def consumed (p : Reader ε α) : Reader ε (α × Bytes) := fun bs =>
  match p.run bs with
  | .error e => .error e
  | .ok (x, rest) => .ok ((x, bs.take (bs.length - rest.length)), rest)

theorem Reads.consumed {p : Reader ε α} {bs : Bytes} {x : α} (h : Reads p bs x) :
    Reads (consumed p) bs (x, bs) := by
  intro rest
  have hrun := h rest
  simp only [ByteReader.consumed, StateT.run] at hrun ⊢
  simp [hrun]

/-- `n` items in a row. -/
def readN (p : Reader ε α) : Nat → Reader ε (List α)
  | 0 => pure []
  | n + 1 => do
      let x ← p
      let xs ← readN p n
      pure (x :: xs)

theorem Reads.readN {p : Reader ε α} {enc : α → Bytes} {xs : List α}
    (h : ∀ x ∈ xs, Reads p (enc x) x) : Reads (readN p xs.length) (xs.flatMap enc) xs := by
  induction xs with
  | nil => exact Reads.pure []
  | cons x xs ih =>
      have hx := h x (by simp)
      have hxs := ih fun y hy => h y (by simp [hy])
      exact hx.bind (hxs.bind_nil (Reads.pure (x :: xs)))

/-- One item for each argument. -/
def readEach (f : β → Reader ε α) : List β → Reader ε (List α)
  | [] => pure []
  | b :: bs => do
      let x ← f b
      let xs ← readEach f bs
      pure (x :: xs)

theorem Reads.readEach {f : β → Reader ε α} {enc : α → Bytes} {key : α → β} {xs : List α}
    (h : ∀ x ∈ xs, Reads (f (key x)) (enc x) x) :
    Reads (readEach f (xs.map key)) (xs.flatMap enc) xs := by
  induction xs with
  | nil => exact Reads.pure []
  | cons x xs ih =>
      have hx := h x (by simp)
      have hxs := ih fun y hy => h y (by simp [hy])
      exact hx.bind (hxs.bind_nil (Reads.pure (x :: xs)))

/-! ## Errors a reader never reports -/

/-- On no input does the reader fail with `e`. -/
def Avoids (p : Reader ε α) (e : ε) : Prop := ∀ bs, p.run bs ≠ .error e

variable {e : ε}

theorem Avoids.pure (x : α) : Avoids (Pure.pure x : Reader ε α) e := by
  intro bs h
  cases h

theorem Avoids.throw {e' : ε} (h : e' ≠ e) : Avoids (MonadExcept.throw e' : Reader ε α) e := by
  intro bs heq
  exact h (Except.error.inj heq)

theorem Avoids.bind {p : Reader ε α} {f : α → Reader ε β} (hp : Avoids p e)
    (hf : ∀ x, Avoids (f x) e) : Avoids (p >>= f) e := by
  intro bs h
  rw [StateT.run_bind] at h
  cases hrun : p.run bs with
  | error e' =>
      rw [hrun] at h
      apply hp bs
      rw [hrun]
      exact congrArg Except.error (Except.error.inj h)
  | ok r =>
      rw [hrun] at h
      exact hf r.1 r.2 h

theorem Avoids.ite {c : Prop} [Decidable c] {p q : Reader ε α} (hp : Avoids p e)
    (hq : Avoids q e) : Avoids (if c then p else q) e := by
  by_cases hc : c
  · rw [if_pos hc]
    exact hp
  · rw [if_neg hc]
    exact hq

theorem Avoids.ofResult {r : Except ε α} (h : r ≠ .error e) : Avoids (ofResult r) e := by
  intro bs heq
  cases r with
  | error e' =>
      apply h
      exact congrArg Except.error (Except.error.inj heq)
  | ok x => cases heq

theorem Avoids.lift {r : Except ε α} (h : r ≠ .error e) :
    Avoids (StateT.lift r : Reader ε α) e := by
  intro bs heq
  cases r with
  | error e' =>
      apply h
      exact congrArg Except.error (Except.error.inj heq)
  | ok x => cases heq

theorem Avoids.consumed {p : Reader ε α} (hp : Avoids p e) : Avoids (consumed p) e := by
  intro bs h
  have hrun := hp bs
  simp only [ByteReader.consumed, StateT.run] at h hrun
  cases heq : p bs with
  | error e' =>
      rw [heq] at h hrun
      exact hrun (congrArg Except.error (Except.error.inj h))
  | ok r =>
      rw [heq] at h
      cases h

theorem Avoids.readN {p : Reader ε α} (hp : Avoids p e) (n : Nat) : Avoids (readN p n) e := by
  induction n with
  | zero => exact Avoids.pure []
  | succ n ih => exact hp.bind fun x => ih.bind fun xs => Avoids.pure _

/-! ## What a reader returns -/

/-- Whatever the reader returns satisfies `P`. -/
def Yields (p : Reader ε α) (P : α → Prop) : Prop :=
  ∀ bs x rest, p.run bs = .ok (x, rest) → P x

theorem Yields.pure {P : α → Prop} {x : α} (h : P x) : Yields (Pure.pure x : Reader ε α) P := by
  intro bs y rest hrun
  cases hrun
  exact h

theorem Yields.throw {P : α → Prop} (e : ε) : Yields (MonadExcept.throw e : Reader ε α) P := by
  intro bs y rest hrun
  cases hrun

theorem Yields.lift {r : Except ε α} {P : α → Prop} (h : ∀ x, r = .ok x → P x) :
    Yields (StateT.lift r : Reader ε α) P := by
  intro bs x rest hrun
  cases r with
  | error e => cases hrun
  | ok y =>
      cases hrun
      exact h x rfl

theorem Yields.ofResult {r : Except ε α} {P : α → Prop} (h : ∀ x, r = .ok x → P x) :
    Yields (ofResult r) P := by
  intro bs x rest hrun
  cases r with
  | error e => cases hrun
  | ok y =>
      cases hrun
      exact h x rfl

theorem Yields.bind {p : Reader ε α} {f : α → Reader ε β} {P : α → Prop} {Q : β → Prop}
    (hp : Yields p P) (hf : ∀ x, P x → Yields (f x) Q) : Yields (p >>= f) Q := by
  intro bs y rest hrun
  rw [StateT.run_bind] at hrun
  cases heq : p.run bs with
  | error e =>
      rw [heq] at hrun
      cases hrun
  | ok r =>
      rw [heq] at hrun
      exact hf r.1 (hp bs r.1 r.2 heq) r.2 y rest hrun

theorem Yields.ite {c : Prop} [Decidable c] {p q : Reader ε α} {P : α → Prop}
    (hp : c → Yields p P) (hq : ¬ c → Yields q P) : Yields (if c then p else q) P := by
  by_cases hc : c
  · rw [if_pos hc]
    exact hp hc
  · rw [if_neg hc]
    exact hq hc

theorem Yields.trivial (p : Reader ε α) : Yields p fun _ => True := fun _ _ _ _ => True.intro

/-! ## Readers that look no further than they read -/

theorem run_bind_eq_ok {p : Reader ε α} {f : α → Reader ε β} {bs rest : Bytes} {y : β} :
    (p >>= f).run bs = .ok (y, rest) ↔
      ∃ x mid, p.run bs = .ok (x, mid) ∧ (f x).run mid = .ok (y, rest) := by
  rw [StateT.run_bind]
  cases hrun : p.run bs with
  | error e =>
      constructor
      · intro h
        cases h
      · rintro ⟨x, mid, h, _⟩
        cases h
  | ok r =>
      constructor
      · intro h
        exact ⟨r.1, r.2, rfl, h⟩
      · rintro ⟨x, mid, h, hf⟩
        cases h
        exact hf

/-- What follows the bytes read makes no difference. -/
def Prefixed (p : Reader ε α) : Prop :=
  ∀ bs x rest, p.run bs = .ok (x, rest) → ∃ used, bs = used ++ rest ∧ Reads p used x

theorem Prefixed.pure (x : α) : Prefixed (Pure.pure x : Reader ε α) := by
  intro bs y rest h
  cases h
  exact ⟨[], rfl, Reads.pure x⟩

theorem Prefixed.throw (e : ε) : Prefixed (MonadExcept.throw e : Reader ε α) := by
  intro bs y rest h
  cases h

theorem Prefixed.bind {p : Reader ε α} {f : α → Reader ε β} (hp : Prefixed p)
    (hf : ∀ x, Prefixed (f x)) : Prefixed (p >>= f) := by
  intro bs y rest h
  obtain ⟨x, mid, hrun, hrest⟩ := run_bind_eq_ok.mp h
  obtain ⟨used, rfl, hreads⟩ := hp bs x mid hrun
  obtain ⟨more, rfl, hmore⟩ := hf x mid y rest hrest
  exact ⟨used ++ more, (List.append_assoc _ _ _).symm, hreads.bind hmore⟩

theorem Prefixed.ite {c : Prop} [Decidable c] {p q : Reader ε α} (hp : Prefixed p)
    (hq : Prefixed q) : Prefixed (if c then p else q) := by
  by_cases hc : c
  · rw [if_pos hc]
    exact hp
  · rw [if_neg hc]
    exact hq

theorem Prefixed.readN {p : Reader ε α} (hp : Prefixed p) (n : Nat) : Prefixed (readN p n) := by
  induction n with
  | zero => exact Prefixed.pure []
  | succ n ih => exact hp.bind fun x => ih.bind fun xs => Prefixed.pure (x :: xs)

theorem consumed_eq_ok {p : Reader ε α} {bs rest : Bytes} {r : α × Bytes}
    (h : (consumed p).run bs = .ok (r, rest)) :
    p.run bs = .ok (r.1, rest) ∧ r.2 = bs.take (bs.length - rest.length) := by
  simp only [consumed, StateT.run] at h ⊢
  cases hrun : p bs with
  | error e =>
      rw [hrun] at h
      cases h
  | ok y =>
      rw [hrun] at h
      cases h
      exact ⟨rfl, rfl⟩

/-- What a reader has consumed are the bytes it looked at. -/
theorem run_consumed {p : Reader ε α} (hp : Prefixed p) {bs rest : Bytes} {r : α × Bytes}
    (h : (consumed p).run bs = .ok (r, rest)) : bs = r.2 ++ rest ∧ Reads p r.2 r.1 := by
  obtain ⟨hrun, htaken⟩ := consumed_eq_ok h
  obtain ⟨used, hbs, hreads⟩ := hp bs _ _ hrun
  have hlen : bs.length - rest.length = used.length := by
    rw [hbs, List.length_append]
    omega
  have htake : r.2 = used := by rw [htaken, hlen, hbs, List.take_left]
  rw [htake]
  exact ⟨hbs, hreads⟩

theorem Prefixed.lift (r : Except ε α) : Prefixed (StateT.lift r : Reader ε α) := by
  intro bs y rest h
  cases r with
  | error e => cases h
  | ok x =>
      cases h
      exact ⟨[], rfl, fun _ => rfl⟩

/-! ## Fields at fixed places -/

/-- A successful run has passed over `n` bytes. -/
def Skips (p : Reader ε α) (n : Nat) : Prop :=
  ∀ bs x rest, p.run bs = .ok (x, rest) → rest = bs.drop n

/-- A successful run returns what is `Q`-related to the bytes from place `n` on. -/
def Finds (p : Reader ε α) (n : Nat) (Q : α → Bytes → Prop) : Prop :=
  ∀ bs x rest, p.run bs = .ok (x, rest) → Q x (bs.drop n)

section Places

variable {p : Reader ε α} {f : α → Reader ε β} {m n : Nat} {P : α → Bytes → Prop}
variable {Q : β → Bytes → Prop}

theorem Skips.finds (hp : Skips p m) (hf : ∀ x, Finds (f x) n Q) : Finds (p >>= f) (m + n) Q := by
  intro bs y rest hrun
  obtain ⟨x, mid, hfirst, hnext⟩ := run_bind_eq_ok.mp hrun
  have hfound := hf x mid y rest hnext
  rwa [hp bs x mid hfirst, List.drop_drop] at hfound

theorem Finds.bind (hp : Finds p n P) (hf : ∀ x bs, P x bs → Yields (f x) (Q · bs)) :
    Finds (p >>= f) n Q := by
  intro bs y rest hrun
  obtain ⟨x, mid, hfirst, hnext⟩ := run_bind_eq_ok.mp hrun
  exact hf x _ (hp bs x mid hfirst) mid y rest hnext

theorem Finds.throw (e : ε) : Finds (MonadExcept.throw e : Reader ε β) n Q := by
  intro bs y rest hrun
  cases hrun

theorem Finds.ite {c : Prop} [Decidable c] {q r : Reader ε β} (hq : Finds q n Q)
    (hr : Finds r n Q) : Finds (if c then q else r) n Q := by
  by_cases hc : c
  · rw [if_pos hc]
    exact hq
  · rw [if_neg hc]
    exact hr

end Places

end Snii.Lib.ByteReader
