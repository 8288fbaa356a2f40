import Snii.Format.FrqPrelude

/-!
# Opening arbitrary bytes as a prelude

Which preludes make `FrqPreludeReader::open` step outside the buffer.  The bounds
of the directory and of the window region are compared after a 64-bit addition, so
a sum that wraps passes the comparison; everything else stays inside.
-/

namespace Snii.Format.FrqPrelude

open Snii.Lib.ByteReader Snii.Common
open Snii.Encoding.ByteSource Snii.Encoding.Crc32c

/-! ## Parts that stay inside -/

theorem avoids_parseHeader : Avoids parseHeader .outOfBounds := by
  refine avoids_getU8.bind fun flags => avoids_getVarint64.bind fun n =>
    avoids_getVarint64.bind fun groupSize => avoids_getVarint64.bind fun nSuper =>
    avoids_getVarint64.bind fun sbdirLen => ?_
  refine Avoids.ite (Avoids.throw (by simp)) (Avoids.ite (Avoids.throw (by simp)) ?_)
  exact Avoids.ite (Avoids.throw (by simp)) (Avoids.pure _)

theorem yields_parseHeader : Yields parseHeader fun h => h.sbdirLen < 2 ^ 64 := by
  refine (Yields.trivial getU8).bind fun flags _ => (Yields.trivial getVarint64).bind fun n _ =>
    (Yields.trivial getVarint64).bind fun groupSize _ =>
    (Yields.trivial getVarint64).bind fun nSuper _ => yields_getVarint64.bind fun sbdirLen hlen => ?_
  refine Yields.ite (fun _ => Yields.throw _) fun _ => ?_
  refine Yields.ite (fun _ => Yields.throw _) fun _ => ?_
  exact Yields.ite (fun _ => Yields.throw _) fun _ => Yields.pure hlen

theorem avoids_readSbDirRows (n prevLast expectOff : Nat) :
    Avoids (readSbDirRows n prevLast expectOff) .outOfBounds := by
  induction n generalizing prevLast expectOff with
  | zero => exact Avoids.pure _
  | succ n ih =>
      refine avoids_getVarint64.bind fun ldd => avoids_getVarint64.bind fun blockOff =>
        avoids_getVarint64.bind fun blockLen => ?_
      exact Avoids.ite (Avoids.throw (by simp)) ((ih _ _).bind fun r => Avoids.pure _)

/-- A directory row of 64-bit fields. -/
def RowFits (r : SbDirRow) : Prop := r.blockOff < 2 ^ 64 ∧ r.blockLen < 2 ^ 64

theorem yields_readSbDirRows (n prevLast : Nat) {expectOff : Nat} (hoff : expectOff < 2 ^ 64) :
    Yields (readSbDirRows n prevLast expectOff) fun r => (∀ row ∈ r.1, RowFits row) ∧
      r.2 < 2 ^ 64 := by
  induction n generalizing prevLast expectOff with
  | zero => exact Yields.pure ⟨by simp, hoff⟩
  | succ n ih =>
      refine (Yields.trivial getVarint64).bind fun ldd _ =>
        (Yields.trivial getVarint64).bind fun blockOff _ =>
        yields_getVarint64.bind fun blockLen hlen => ?_
      refine Yields.ite (fun _ => Yields.throw _) fun hcheck => ?_
      refine (ih _ (Nat.mod_lt _ (by decide))).bind fun r hr => Yields.pure ⟨?_, hr.2⟩
      intro row hrow
      rcases List.mem_cons.mp hrow with rfl | hrow
      · have heq : blockOff = expectOff := by
          by_contra hne
          exact hcheck (.inr hne)
        exact ⟨heq ▸ hoff, hlen⟩
      · exact hr.1 row hrow

theorem checkWinMode_ne_outOfBounds (mode : Nat) (hasFreq : Bool) :
    checkWinMode mode hasFreq ≠ .error .outOfBounds := by
  intro h
  rw [checkWinMode] at h
  split at h
  · cases h
  · split at h <;> cases h

theorem avoids_readFreqLocator (hasFreq : Bool) :
    Avoids (readFreqLocator hasFreq) .outOfBounds := by
  refine Avoids.ite ?_ (Avoids.pure _)
  exact avoids_getVarint64.bind fun _ => avoids_getVarint64.bind fun _ =>
    avoids_getVarint64.bind fun _ => avoids_getFixed32.bind fun _ => Avoids.pure _

theorem avoids_readPrxLocator (hasPrx : Bool) : Avoids (readPrxLocator hasPrx) .outOfBounds := by
  refine Avoids.ite ?_ (Avoids.pure _)
  exact avoids_getVarint64.bind fun _ => avoids_getVarint64.bind fun _ => Avoids.pure _

theorem avoids_decodeWindowRow (hasFreq hasPrx : Bool) (prevLast : Nat) :
    Avoids (decodeWindowRow hasFreq hasPrx prevLast) .outOfBounds := by
  refine avoids_getVarint64.bind fun ldd => avoids_getVarint64.bind fun docCount =>
    avoids_getU8.bind fun mode => ?_
  refine (Avoids.lift (checkWinMode_ne_outOfBounds mode hasFreq)).bind fun _ =>
    avoids_getVarint64.bind fun ddOff => avoids_getVarint64.bind fun ddDiskLen =>
    avoids_getVarint64.bind fun ddUncompLen => avoids_getFixed32.bind fun crcDd => ?_
  exact (avoids_readFreqLocator hasFreq).bind fun freq =>
    (avoids_readPrxLocator hasPrx).bind fun prx => avoids_getVarint64.bind fun maxFreq =>
    avoids_getU8.bind fun maxNorm => Avoids.pure _

theorem avoids_readRows (hasFreq hasPrx : Bool) (n prevLast : Nat) :
    Avoids (readRows hasFreq hasPrx n prevLast) .outOfBounds := by
  induction n generalizing prevLast with
  | zero => exact Avoids.pure _
  | succ n ih =>
      exact (avoids_decodeWindowRow hasFreq hasPrx prevLast).bind fun m =>
        (ih m.lastDocid).bind fun ms => Avoids.pure _

theorem decodeOneBlock_ne_outOfBounds (block : Bytes) (h : Header) (last rows prevLast : Nat) :
    decodeOneBlock block h last rows prevLast ≠ .error .outOfBounds := by
  refine bind_ne_error (parseAll_ne_outOfBounds (avoids_readRows _ _ _ _) _ _) ?_
  intro ms _
  split <;> simp

/-- The check of a window block is not fooled by a wrapped sum. -/
theorem decodeBlocks_ne_outOfBounds (region : Bytes) (h : Header) {rows : List SbDirRow}
    (hrows : ∀ r ∈ rows, RowFits r) (already prevLast : Nat) :
    decodeBlocks region h already prevLast rows ≠ .error .outOfBounds := by
  induction rows generalizing already prevLast with
  | nil =>
      intro heq
      cases heq
  | cons r rows ih =>
      obtain ⟨hoff, hlen⟩ := hrows r List.mem_cons_self
      rw [decodeBlocks]
      split
      · simp
      · rename_i hcheck
        have hinside : r.blockOff + r.blockLen ≤ region.length := by
          rcases Nat.lt_or_ge (r.blockOff + r.blockLen) (2 ^ 64) with hlt | hge
          · rw [Nat.mod_eq_of_lt hlt] at hcheck
            omega
          · rw [Nat.mod_eq_sub_mod hge, Nat.mod_eq_of_lt (by omega)] at hcheck
            omega
        rw [subslice, if_neg (by omega), ok_bind]
        refine bind_ne_error (decodeOneBlock_ne_outOfBounds _ _ _ _ _) fun ms _ => ?_
        refine bind_ne_error (ih (fun x hx => hrows x (List.mem_cons_of_mem _ hx)) _ _) ?_
        intro rest _
        simp [pure, Except.pure]

theorem validateRegionLayout_ne_outOfBounds (hasFreq : Bool) (ddExpect freqExpect : Nat)
    (ms : List WindowMeta) :
    validateRegionLayout hasFreq ddExpect freqExpect ms ≠ .error .outOfBounds := by
  induction ms generalizing ddExpect freqExpect with
  | nil =>
      intro h
      cases h
  | cons m ms ih =>
      intro h
      rw [validateRegionLayout] at h
      repeat' split at h
      all_goals first | exact ih _ _ h | cases h

/-! ## The two sums -/

/-- The 64-bit sums behind the bounds of the checksum, of the directory and of the
window region do not wrap where a wrapped sum would be accepted. -/
def SumsFit (prelude : Bytes) : Prop :=
  ∀ h rest, parseHeader.run prelude = .ok (h, rest) →
    let headerEnd := prelude.length - rest.length
    (((headerEnd + h.sbdirLen) % 2 ^ 64 + 4) % 2 ^ 64 ≤ prelude.length →
      (headerEnd + h.sbdirLen) % 2 ^ 64 + 4 < 2 ^ 64) ∧
    (verifyCoveredCrc prelude headerEnd h.sbdirLen = .ok () →
      headerEnd + h.sbdirLen < 2 ^ 64 ∧
      ∀ rows len, decodeSuperBlockDir ((prelude.drop headerEnd).take h.sbdirLen) h =
        .ok (rows, len) → headerEnd + h.sbdirLen + 4 + len < 2 ^ 64)

variable {prelude : Bytes} {h : Header} {headerEnd : Nat}

theorem verifyCoveredCrc_ne_iff (hsize : prelude.length < 2 ^ 64) (sbdirLen : Nat) :
    verifyCoveredCrc prelude headerEnd sbdirLen ≠ .error .outOfBounds ↔
      (((headerEnd + sbdirLen) % 2 ^ 64 + 4) % 2 ^ 64 ≤ prelude.length →
        (headerEnd + sbdirLen) % 2 ^ 64 + 4 < 2 ^ 64) := by
  rw [verifyCoveredCrc]
  generalize (headerEnd + sbdirLen) % 2 ^ 64 = covered
  by_cases hshort : (covered + 4) % 2 ^ 64 > prelude.length
  · simp only [if_pos hshort]
    constructor
    · intro _ hle
      omega
    · intro _
      simp
  · simp only [if_neg hshort]
    constructor
    · intro hne _
      by_contra hwrap
      apply hne
      rw [subslice, if_pos (by omega)]
      rfl
    · intro hfit
      have hlt := hfit (by omega)
      rw [Nat.mod_eq_of_lt hlt] at hshort
      rw [subslice, if_neg (by omega), ok_bind]
      refine bind_ne_error (avoids_getFixed32 _) fun stored _ => ?_
      rw [subslice, if_neg (by omega), ok_bind]
      split <;> simp

theorem verifyCoveredCrc_ok {sbdirLen : Nat}
    (hok : verifyCoveredCrc prelude headerEnd sbdirLen = .ok ()) :
    (headerEnd + sbdirLen) % 2 ^ 64 + 4 ≤ prelude.length := by
  rw [verifyCoveredCrc] at hok
  generalize (headerEnd + sbdirLen) % 2 ^ 64 = covered at hok
  simp only at hok
  split at hok
  · cases hok
  · rw [subslice] at hok
    split at hok
    · cases hok
    · omega

/-- `open` behind the checksum. -/
private def openDirectory (prelude : Bytes) (h : Header) (headerEnd : Nat) :
    Result FrqPreludeReader :=
  if (headerEnd + h.sbdirLen) % 2 ^ 64 > prelude.length then
    .error (.corruption "frq_prelude: sbdir_len past buffer")
  else do
    let dir ← subslice prelude headerEnd h.sbdirLen
    let (rows, windowRegionLen) ← decodeSuperBlockDir dir h
    let regionStart := (headerEnd + h.sbdirLen + 4) % 2 ^ 64
    if (regionStart + windowRegionLen) % 2 ^ 64 > prelude.length then
      .error (.corruption "frq_prelude: window region past buffer")
    else
      let windowRegion ← subslice prelude regionStart windowRegionLen
      let windows ← decodeAllBlocks windowRegion h rows
      let (ddBlockLen, freqBlockLen) ← validateRegionLayout h.hasFreq 0 0 windows
      pure { hasFreq := h.hasFreq, hasPrx := h.hasPrx, groupSize := h.groupSize % 2 ^ 32
             nSuper := h.nSuper, ddBlockLen := ddBlockLen, freqBlockLen := freqBlockLen
             sbLastDocid := rows.map SbDirRow.lastDocid, windows := windows }

theorem open_run {rest : Bytes} (hrun : parseHeader.run prelude = .ok (h, rest)) :
    FrqPreludeReader.open prelude =
      (verifyCoveredCrc prelude (prelude.length - rest.length) h.sbdirLen >>= fun _ =>
        openDirectory prelude h (prelude.length - rest.length)) := by
  rw [FrqPreludeReader.open, hrun, ok_bind]
  rfl

theorem openDirectory_ne_iff (hsize : prelude.length < 2 ^ 64)
    (hlen : h.sbdirLen < 2 ^ 64)
    (hcov : (headerEnd + h.sbdirLen) % 2 ^ 64 + 4 ≤ prelude.length) :
    openDirectory prelude h headerEnd ≠ .error .outOfBounds ↔
      headerEnd + h.sbdirLen < 2 ^ 64 ∧
      ∀ rows len, decodeSuperBlockDir ((prelude.drop headerEnd).take h.sbdirLen) h =
        .ok (rows, len) → headerEnd + h.sbdirLen + 4 + len < 2 ^ 64 := by
  rw [openDirectory, if_neg (by omega)]
  rcases Nat.lt_or_ge (headerEnd + h.sbdirLen) (2 ^ 64) with hlt | hge
  · rw [Nat.mod_eq_of_lt hlt] at hcov
    rw [subslice, if_neg (by omega), ok_bind, Nat.mod_eq_of_lt (show headerEnd + h.sbdirLen + 4 <
      2 ^ 64 by omega)]
    set dir := (prelude.drop headerEnd).take h.sbdirLen
    have hdir := parseAll_ne_outOfBounds (avoids_readSbDirRows h.nSuper 0 0)
      "frq_prelude: super-block dir has trailing bytes" dir
    cases hdec : decodeSuperBlockDir dir h with
    | error e =>
        rw [decodeSuperBlockDir] at hdec
        rw [hdec] at hdir
        constructor
        · intro _
          exact ⟨hlt, fun rows len hrows => by cases hrows⟩
        · intro _ heq
          exact hdir (congrArg Except.error (Except.error.inj heq))
    | ok r =>
        obtain ⟨rows, len⟩ := r
        obtain ⟨hfits, hlen64⟩ := yields_parseAll
          (yields_readSbDirRows h.nSuper 0 (show 0 < 2 ^ 64 by decide)) hdec
        rw [ok_bind]
        simp only at hfits hlen64 ⊢
        rcases Nat.lt_or_ge (headerEnd + h.sbdirLen + 4 + len) (2 ^ 64) with hw | hw
        · rw [Nat.mod_eq_of_lt hw]
          refine iff_of_true ?_ ⟨hlt, fun rows' len' heq => by cases heq; exact hw⟩
          split
          · simp
          · rw [subslice, if_neg (by omega), ok_bind]
            refine bind_ne_error ?_ fun windows _ => ?_
            · refine bind_ne_error (decodeBlocks_ne_outOfBounds _ _ hfits _ _) fun ms _ => ?_
              split <;> simp
            · refine bind_ne_error (validateRegionLayout_ne_outOfBounds _ _ _ _) fun r _ => ?_
              simp [pure, Except.pure]
        · -- the wrapped sum is below the region's start and passes
          have hwrap : (headerEnd + h.sbdirLen + 4 + len) % 2 ^ 64 ≤ prelude.length := by
            rw [Nat.mod_eq_sub_mod hw, Nat.mod_eq_of_lt (by omega)]
            omega
          rw [if_neg (by omega), subslice, if_pos (by omega)]
          refine iff_of_false (by simp [bind, Except.bind]) ?_
          rintro ⟨-, hall⟩
          have := hall rows len rfl
          omega
  · rw [subslice, if_pos (by omega)]
    refine iff_of_false (by simp [bind, Except.bind]) ?_
    rintro ⟨hlt, -⟩
    omega

/-- **Safety of `open`**: it leaves the buffer exactly when one of the sums wraps. -/
theorem open_inside_iff (hsize : prelude.length < 2 ^ 64) :
    FrqPreludeReader.open prelude ≠ .error .outOfBounds ↔ SumsFit prelude := by
  cases hrun : parseHeader.run prelude with
  | error e =>
      refine iff_of_true ?_ ?_
      · intro heq
        apply avoids_parseHeader prelude
        rw [FrqPreludeReader.open, hrun] at heq
        rw [hrun]
        exact congrArg Except.error (Except.error.inj heq)
      · intro h rest heq
        rw [hrun] at heq
        cases heq
  | ok r =>
      obtain ⟨h, rest⟩ := r
      have hlen := yields_parseHeader prelude h rest hrun
      have hverify := @verifyCoveredCrc_ne_iff prelude (prelude.length - rest.length) hsize h.sbdirLen
      have hfit : SumsFit prelude ↔
          (((prelude.length - rest.length + h.sbdirLen) % 2 ^ 64 + 4) % 2 ^ 64 ≤ prelude.length →
            (prelude.length - rest.length + h.sbdirLen) % 2 ^ 64 + 4 < 2 ^ 64) ∧
          (verifyCoveredCrc prelude (prelude.length - rest.length) h.sbdirLen = .ok () →
            openDirectory prelude h (prelude.length - rest.length) ≠ .error .outOfBounds) := by
        constructor
        · intro hsums
          obtain ⟨h1, h2⟩ := hsums h rest hrun
          exact ⟨h1, fun hok =>
            (openDirectory_ne_iff hsize hlen (verifyCoveredCrc_ok hok)).mpr (h2 hok)⟩
        · rintro ⟨h1, h2⟩ h' rest' heq
          rw [hrun] at heq
          cases heq
          exact ⟨h1, fun hok =>
            (openDirectory_ne_iff hsize hlen (verifyCoveredCrc_ok hok)).mp (h2 hok)⟩
      rw [hfit, ← hverify, open_run hrun]
      cases hok : verifyCoveredCrc prelude (prelude.length - rest.length) h.sbdirLen with
      | error e =>
          constructor
          · intro hne
            exact ⟨fun heq => hne (congrArg Except.error (Except.error.inj heq)), by simp⟩
          · rintro ⟨hne, -⟩ heq
            exact hne (congrArg Except.error (Except.error.inj heq))
      | ok u =>
          rw [ok_bind]
          exact ⟨fun hne => ⟨by simp, fun _ => hne⟩, fun hall => hall.2 rfl⟩

/-- One window in one super-block whose declared length is 2⁶⁴ - 21: the header ends at
5, the directory at 17, its checksum at 21. -/
def wrappedPrelude : Bytes :=
  let covered := [0, 1, 1, 1, 12, 0, 0] ++ putVarint64 (2 ^ 64 - 21)
  covered ++ putFixed32 (crc32c covered)

theorem open_wrappedPrelude :
    FrqPreludeReader.open wrappedPrelude = .error .outOfBounds := by
  decide +kernel

/-- A prelude of one window. -/
def oneRow : Bytes :=
  [1, 1, 1, 1, 3, 9, 0, 19, 201, 246, 10, 134, 9, 4, 0, 0, 5, 5, 77, 0, 0, 0, 0, 2, 2, 0, 0, 0, 0,
    3, 0]

/-- The sums of a prelude with a row fit. -/
theorem open_inside_iff_oneRow :
    buildFrqPrelude
        { groupSize := 1
          windows := [{ lastDocid := 9, docCount := 4, ddDiskLen := 5, ddUncompLen := 5
                        crcDd := 77, freqDiskLen := 2, freqUncompLen := 2, maxFreq := 3 }] } =
      .ok oneRow ∧ FrqPreludeReader.open oneRow ≠ .error .outOfBounds ∧ SumsFit oneRow := by
  have hopen : FrqPreludeReader.open oneRow ≠ .error .outOfBounds := by
    decide +kernel
  exact ⟨by decide +kernel, hopen, (open_inside_iff (by decide)).mp hopen⟩

end Snii.Format.FrqPrelude
