import Snii.Encoding.Varint

/-!
# Sources and sinks

`byte_source.cpp` and `byte_sink.cpp`.  A source is a reader over the bytes not
read yet; an overrun is a corruption.  A sink is the bytes it has been given, so
each `put` is the string it appends.
-/

namespace Snii.Encoding.ByteSource

open Snii.Lib.ByteReader Snii.Common Snii.Encoding.Varint

/-! ## Reading -/

/-- One byte. -/
def getU8 : Source Nat := fun bs =>
  match bs with
  | [] => .error (.corruption "get_u8 overrun")
  | b :: rest => .ok (b.toNat, rest)

/-- A fixed-width little-endian field of `w` bytes. -/
def getFixed (w : Nat) (overrun : String) : Source Nat := fun bs =>
  if bs.length < w then .error (.corruption overrun) else .ok (leValue (bs.take w), bs.drop w)

/-- Two bytes, the low one first. -/
def getFixed16 : Source Nat := getFixed 2 "get_fixed16 overrun"

/-- Four bytes. -/
def getFixed32 : Source Nat := getFixed 4 "get_fixed32 overrun"

/-- Eight bytes. -/
def getFixed64 : Source Nat := getFixed 8 "get_fixed64 overrun"

/-- A varint. -/
def getVarint64 : Source Nat := fun bs => decodeVarint64 bs

/-- A varint that must fit 32 bits. -/
def getVarint32 : Source Nat := do
  let v ← getVarint64
  if v > 4294967295 then throw (.corruption "varint32 overflow") else pure v

/-- The next `n` bytes. -/
def getBytes (n : Nat) : Source Bytes := fun bs =>
  if bs.length < n then .error (.corruption "get_bytes overrun") else .ok (bs.take n, bs.drop n)

/-- How many bytes are left. -/
def remaining : Source Nat := fun bs => .ok (bs.length, bs)

/-- Whether none are. -/
def eof : Source Bool := fun bs => .ok (bs.isEmpty, bs)

/-- Reads a whole slice: the reader must end at its end. -/
def parseAll {α : Type} (p : Source α) (trailing : String) (slice : Bytes) : Result α := do
  let (x, rest) ← p.run slice
  if rest ≠ [] then .error (.corruption trailing) else .ok x

/-! ## Writing -/

/-- The low byte of a number. -/
def putU8 (v : Nat) : Bytes := [UInt8.ofNat v]

/-- Two bytes, the low one first. -/
def putFixed16 (v : Nat) : Bytes := leBytes 2 v

/-- Four bytes. -/
def putFixed32 (v : Nat) : Bytes := leBytes 4 v

/-- Eight bytes. -/
def putFixed64 (v : Nat) : Bytes := leBytes 8 v

/-- A varint of 32 bits. -/
def putVarint32 (v : Nat) : Bytes := encodeVarint32 v

/-- A varint. -/
def putVarint64 (v : Nat) : Bytes := encodeVarint64 v

@[simp] theorem length_putU8 (v : Nat) : (putU8 v).length = 1 := rfl

@[simp] theorem length_putFixed16 (v : Nat) : (putFixed16 v).length = 2 := rfl

@[simp] theorem length_putFixed32 (v : Nat) : (putFixed32 v).length = 4 := rfl

@[simp] theorem length_putFixed64 (v : Nat) : (putFixed64 v).length = 8 := rfl

theorem length_putVarint64_le (v : Nat) : (putVarint64 v).length ≤ 10 :=
  encodeVarint64_length_le v

theorem length_putVarint32_le (v : Nat) : (putVarint32 v).length ≤ 10 :=
  encodeVarint64_length_le v

/-! ## What is written is read -/

theorem reads_getU8 {v : Nat} (h : v < 256) : Reads getU8 (putU8 v) v := by
  intro rest
  show Except.ok ((UInt8.ofNat v).toNat, rest) = _
  rw [UInt8.toNat_ofNat', Nat.mod_eq_of_lt (by omega)]

theorem reads_getFixed {w v : Nat} (overrun : String) (h : v < 256 ^ w) :
    Reads (getFixed w overrun) (leBytes w v) v := by
  intro rest
  have hlen : ¬ (leBytes w v ++ rest).length < w := by simp
  show (if (leBytes w v ++ rest).length < w then _ else _) = _
  rw [if_neg hlen, List.take_left' (length_leBytes w v), List.drop_left' (length_leBytes w v),
    leValue_leBytes h]

theorem reads_getFixed16 {v : Nat} (h : v < 2 ^ 16) : Reads getFixed16 (putFixed16 v) v :=
  reads_getFixed _ (by omega)

theorem reads_getFixed32 {v : Nat} (h : v < 2 ^ 32) : Reads getFixed32 (putFixed32 v) v :=
  reads_getFixed _ (by omega)

theorem reads_getFixed64 {v : Nat} (h : v < 2 ^ 64) : Reads getFixed64 (putFixed64 v) v :=
  reads_getFixed _ (by omega)

theorem reads_getVarint64 {v : Nat} (h : v < 2 ^ 64) : Reads getVarint64 (putVarint64 v) v :=
  fun rest => decodeVarint64_encode h rest

theorem reads_getVarint32 {v : Nat} (h : v < 2 ^ 32) : Reads getVarint32 (putVarint32 v) v :=
  Reads.bind_nil (reads_getVarint64 (Nat.lt_trans h (by decide)))
    (Reads.if_neg (by omega) (Reads.pure v))

theorem reads_getBytes (bs : Bytes) : Reads (getBytes bs.length) bs bs := by
  intro rest
  show (if (bs ++ rest).length < bs.length then _ else _) = _
  rw [if_neg (by simp), List.take_left, List.drop_left]

theorem eof_run_bind {α : Type} (f : Bool → Source α) (bs : Bytes) :
    (eof >>= f).run bs = (f bs.isEmpty).run bs := rfl

/-- A check of what is left sees at least what is read next. -/
theorem reads_remaining_bind {α : Type} {f : Nat → Source α} {bs : Bytes} {x : α}
    (h : ∀ left, bs.length ≤ left → Reads (f left) bs x) : Reads (remaining >>= f) bs x := by
  intro rest
  exact h (bs ++ rest).length (by simp) rest

theorem parseAll_of_reads {α : Type} {p : Source α} {bs : Bytes} {x : α} (h : Reads p bs x)
    (trailing : String) : parseAll p trailing bs = .ok x := by
  have hrun := h []
  rw [List.append_nil] at hrun
  rw [parseAll, hrun, ok_bind]
  simp

/-! ## Reads stay inside the source -/

theorem avoids_getU8 : Avoids getU8 .outOfBounds := by
  intro bs h
  cases bs <;> cases h

theorem avoids_getFixed (w : Nat) (overrun : String) :
    Avoids (getFixed w overrun) .outOfBounds := by
  intro bs h
  have h' : (if bs.length < w then Except.error (Status.corruption overrun)
    else Except.ok (leValue (bs.take w), bs.drop w)) = Except.error Status.outOfBounds := h
  split at h' <;> cases h'

theorem avoids_getFixed16 : Avoids getFixed16 .outOfBounds := avoids_getFixed _ _

theorem avoids_getFixed32 : Avoids getFixed32 .outOfBounds := avoids_getFixed _ _

theorem avoids_getFixed64 : Avoids getFixed64 .outOfBounds := avoids_getFixed _ _

theorem decodeVarintLoop_ne_outOfBounds (bs : Bytes) (shift acc : Nat) :
    decodeVarintLoop shift acc bs ≠ .error .outOfBounds := by
  induction bs generalizing shift acc with
  | nil =>
      intro h
      cases h
  | cons b rest ih =>
      rw [decodeVarintLoop]
      intro h
      split at h
      · cases h
      · split at h
        · cases h
        · exact ih _ _ h

theorem avoids_getVarint64 : Avoids getVarint64 .outOfBounds :=
  fun bs => decodeVarintLoop_ne_outOfBounds bs 0 0

theorem avoids_getVarint32 : Avoids getVarint32 .outOfBounds :=
  avoids_getVarint64.bind fun _ => Avoids.ite (Avoids.throw (by simp)) (Avoids.pure _)

theorem avoids_getBytes (n : Nat) : Avoids (getBytes n) .outOfBounds := by
  intro bs h
  have h' : (if bs.length < n then Except.error (Status.corruption "get_bytes overrun")
    else Except.ok (bs.take n, bs.drop n)) = Except.error Status.outOfBounds := h
  split at h' <;> cases h'

theorem avoids_remaining : Avoids remaining .outOfBounds := by
  intro bs h
  cases h

theorem parseAll_ne_outOfBounds {α : Type} {p : Source α} (hp : Avoids p .outOfBounds)
    (trailing : String) (slice : Bytes) : parseAll p trailing slice ≠ .error .outOfBounds := by
  refine bind_ne_error (hp slice) ?_
  rintro ⟨x, rest⟩ -
  simp only
  split <;> simp

/-- A slice parses whole when its reader ends at its end. -/
theorem parseAll_eq_ok {α : Type} {p : Source α} {trailing : String} {slice : Bytes} {x : α} :
    parseAll p trailing slice = .ok x ↔ p.run slice = .ok (x, []) := by
  rw [parseAll]
  cases hrun : p.run slice with
  | error e =>
      constructor
      · intro h
        cases h
      · intro h
        cases h
  | ok r =>
      obtain ⟨y, rest⟩ := r
      rw [ok_bind]
      simp only
      by_cases hrest : rest = []
      · subst hrest
        rw [if_neg (not_not.mpr rfl)]
        constructor
        · intro h
          cases h
          rfl
        · intro h
          cases h
          rfl
      · rw [if_pos hrest]
        constructor
        · intro h
          cases h
        · intro h
          cases h
          exact absurd rfl hrest

/-- A 64-bit varint has 64 bits. -/
theorem yields_getVarint64 : Yields getVarint64 (· < 2 ^ 64) := by
  have hloop : ∀ (bs rest : Bytes) (shift acc v : Nat),
      decodeVarintLoop shift acc bs = .ok (v, rest) → v < 2 ^ 64 := by
    intro bs rest
    induction bs with
    | nil =>
        intro shift acc v h
        cases h
    | cons b tail ih =>
        intro shift acc v h
        rw [decodeVarintLoop] at h
        split at h
        · cases h
          exact Nat.mod_lt _ (by decide)
        · split at h
          · cases h
          · exact ih _ _ _ h
  intro bs v rest h
  exact hloop bs rest 0 0 v h

theorem yields_parseAll {α : Type} {p : Source α} {P : α → Prop} (hp : Yields p P)
    {trailing : String} {slice : Bytes} {x : α} (h : parseAll p trailing slice = .ok x) : P x := by
  rw [parseAll] at h
  cases hrun : p.run slice with
  | error e =>
      rw [hrun] at h
      cases h
  | ok r =>
      rw [hrun, ok_bind] at h
      simp only at h
      split at h
      · cases h
      · cases h
        exact hp slice _ _ hrun

/-! ## The readers look no further than they read -/

theorem prefixed_getU8 : Prefixed getU8 := by
  intro bs v rest h
  cases bs with
  | nil => cases h
  | cons b tail =>
      cases h
      exact ⟨[b], rfl, fun _ => rfl⟩

theorem prefixed_getFixed (w : Nat) (overrun : String) : Prefixed (getFixed w overrun) := by
  intro bs v rest h
  rw [StateT.run, getFixed] at h
  split at h
  · cases h
  · rename_i hlen
    cases h
    have htake : (bs.take w).length = w := by
      rw [List.length_take]
      omega
    refine ⟨bs.take w, (List.take_append_drop w bs).symm, fun rest => ?_⟩
    rw [StateT.run, getFixed, if_neg (by rw [List.length_append]; omega),
      List.take_left' htake, List.drop_left' htake]

theorem prefixed_getFixed32 : Prefixed getFixed32 := prefixed_getFixed _ _

theorem prefixed_getVarint64 : Prefixed getVarint64 := by
  have hloop : ∀ (bs rest : Bytes) (shift acc v : Nat),
      decodeVarintLoop shift acc bs = .ok (v, rest) → ∃ used, bs = used ++ rest ∧
        ∀ more, decodeVarintLoop shift acc (used ++ more) = .ok (v, more) := by
    intro bs rest
    induction bs with
    | nil =>
        intro shift acc v h
        cases h
    | cons b tail ih =>
        intro shift acc v h
        rw [decodeVarintLoop] at h
        split at h
        · rename_i hlast
          cases h
          refine ⟨[b], rfl, fun more => ?_⟩
          rw [List.singleton_append, decodeVarintLoop, if_pos hlast]
        · rename_i hcont
          split at h
          · cases h
          · rename_i hshift
            obtain ⟨used, rfl, hused⟩ := ih _ _ _ h
            refine ⟨b :: used, rfl, fun more => ?_⟩
            rw [List.cons_append, decodeVarintLoop, if_neg hcont, if_neg hshift]
            exact hused more
  intro bs v rest h
  exact hloop bs rest 0 0 v h

theorem prefixed_getVarint32 : Prefixed getVarint32 :=
  prefixed_getVarint64.bind fun v => Prefixed.ite (Prefixed.throw _) (Prefixed.pure v)

theorem prefixed_getBytes (n : Nat) : Prefixed (getBytes n) := by
  intro bs v rest h
  rw [StateT.run, getBytes] at h
  split at h
  · cases h
  · rename_i hlen
    cases h
    have htake : (bs.take n).length = n := by
      rw [List.length_take]
      omega
    refine ⟨bs.take n, (List.take_append_drop n bs).symm, ?_⟩
    have hreads := reads_getBytes (bs.take n)
    rwa [htake] at hreads

theorem getBytes_inv {n : Nat} {bs v rest : Bytes} (h : (getBytes n).run bs = .ok (v, rest)) :
    bs = v ++ rest ∧ v.length = n := by
  rw [StateT.run, getBytes] at h
  split at h
  · cases h
  · cases h
    exact ⟨(List.take_append_drop n bs).symm, by rw [List.length_take]; omega⟩

/-- A slice that parses whole reads the same in front of anything. -/
theorem reads_of_parseAll {α : Type} {p : Source α} (hp : Prefixed p) {trailing : String}
    {slice : Bytes} {x : α} (h : parseAll p trailing slice = .ok x) : Reads p slice x := by
  rw [parseAll] at h
  cases hrun : p.run slice with
  | error e =>
      rw [hrun] at h
      cases h
  | ok r =>
      rw [hrun, ok_bind] at h
      simp only at h
      split at h
      · cases h
      · rename_i hrest
        cases h
        obtain ⟨used, hused, hreads⟩ := hp slice _ _ hrun
        rw [not_not.mp hrest, List.append_nil] at hused
        rw [hused]
        exact hreads

/-! ## Fields at fixed places -/

theorem skips_getU8 : Skips getU8 1 := by
  intro bs x rest h
  cases bs with
  | nil => cases h
  | cons b bs =>
      cases h
      rfl

theorem run_getFixed {w : Nat} {overrun : String} {bs rest : Bytes} {v : Nat}
    (h : (getFixed w overrun).run bs = .ok (v, rest)) :
    v = leValue (bs.take w) ∧ rest = bs.drop w := by
  have h' : (if bs.length < w then Except.error (Status.corruption overrun)
    else Except.ok (leValue (bs.take w), bs.drop w)) = Except.ok (v, rest) := h
  split at h'
  · cases h'
  · cases h'
    exact ⟨rfl, rfl⟩

theorem skips_getFixed16 : Skips getFixed16 2 := fun _ _ _ h => (run_getFixed h).2

theorem skips_getFixed32 : Skips getFixed32 4 := fun _ _ _ h => (run_getFixed h).2

theorem skips_getFixed64 : Skips getFixed64 8 := fun _ _ _ h => (run_getFixed h).2

theorem finds_getFixed32 : Finds getFixed32 0 fun v bs => v = leValue (bs.take 4) :=
  fun _ _ _ h => (run_getFixed h).1

end Snii.Encoding.ByteSource
