import Snii.Format.FrqPreludeLocate
import Snii.Format.FrqPreludeSafety

/-!
# What an accepted prelude is worth

A row states its last docid as a 64-bit delta, and the window keeps the low 32 bits of
the sum; the group size is a 64-bit field of which the reader keeps the low 32 bits.
`open` checks neither, so bytes it accepts may have windows that go back, or windows
that locating never reaches.  `open_consistent_iff` says on the bytes when that is so.
-/

namespace Snii.Format.FrqPrelude

open Snii.Lib.ByteReader Snii.Lib.SortedSearch Snii.Common
open Snii.Encoding.ByteSource Snii.Encoding.Crc32c

/-! ## The property -/

/-- Each window starts where the one before ended. -/
def BasesChain : Nat → List WindowMeta → Prop
  | _, [] => True
  | prevLast, m :: ms => m.winBase = prevLast ∧ BasesChain m.lastDocid ms

/-- The windows ascend and chain, and locating is a linear scan for every 32-bit docid. -/
structure Consistent (r : FrqPreludeReader) : Prop where
  ascend : (r.windows.map WindowMeta.lastDocid).Pairwise (· ≤ ·)
  bases : BasesChain 0 r.windows
  locate : ∀ docid < 2 ^ 32, r.locateWindow docid = firstReaching r.windows docid

/-! ## What the bytes state -/

/-- The delta in front of a row. -/
def rowDelta (hasFreq hasPrx : Bool) : Source Nat := fun bs => do
  let (ldd, _) ← getVarint64.run bs
  let (_, rest) ← (decodeWindowRow hasFreq hasPrx 0).run bs
  pure (ldd, rest)

structure StatedDirectory where
  groupSize : Nat
  deltas : List Nat

/-- The group size of the header and the deltas of the rows behind the checksum. -/
def statedDirectory (prelude : Bytes) : Result StatedDirectory := do
  let (h, rest) ← parseHeader.run prelude
  let regionStart := (prelude.length - rest.length + h.sbdirLen + 4) % 2 ^ 64
  let (deltas, _) ← (readN (rowDelta h.hasFreq h.hasPrx) h.n).run (prelude.drop regionStart)
  pure { groupSize := h.groupSize, deltas := deltas }

/-- The sum of the deltas' low 32 bits. -/
def lowSum (deltas : List Nat) : Nat := (deltas.map (· % 2 ^ 32)).sum

/-- The deltas' low 32 bits add up to a 32-bit docid, and no window behind the first
`G mod 2³²` moves on when the group size `G` has more than 32 bits. -/
def StatedDirectory.Fits (d : StatedDirectory) : Prop :=
  lowSum d.deltas < 2 ^ 32 ∧
    (d.groupSize < 2 ^ 32 ∨ d.deltas = [] ∨
      0 < d.groupSize % 2 ^ 32 ∧ lowSum (d.deltas.drop (d.groupSize % 2 ^ 32)) = 0)

instance (d : StatedDirectory) : Decidable d.Fits :=
  inferInstanceAs (Decidable (_ ∧ (_ ∨ _ ∨ _ ∧ _)))

/-! ## Deltas and windows -/

/-- Windows as the deltas make them. -/
def FromDeltas : Nat → List Nat → List WindowMeta → Prop
  | _, [], [] => True
  | prevLast, ldd :: ldds, m :: ms =>
      m.lastDocid = (prevLast + ldd) % 2 ^ 32 ∧ m.winBase = prevLast ∧
        FromDeltas m.lastDocid ldds ms
  | _, _, _ => False

variable {hasFreq hasPrx : Bool} {prevLast : Nat} {ldds : List Nat} {ms : List WindowMeta}

theorem FromDeltas.bases (h : FromDeltas prevLast ldds ms) : BasesChain prevLast ms := by
  induction ms generalizing prevLast ldds with
  | nil => trivial
  | cons m ms ih =>
      cases ldds with
      | nil => cases h
      | cons ldd ldds => exact ⟨h.2.1, ih h.2.2⟩

theorem FromDeltas.length_eq (h : FromDeltas prevLast ldds ms) : ldds.length = ms.length := by
  induction ms generalizing prevLast ldds with
  | nil =>
      cases ldds with
      | nil => rfl
      | cons ldd ldds => cases h
  | cons m ms ih =>
      cases ldds with
      | nil => cases h
      | cons ldd ldds => rw [List.length_cons, List.length_cons, ih h.2.2]

theorem lowSum_cons (ldd : Nat) (ldds : List Nat) :
    lowSum (ldd :: ldds) = ldd % 2 ^ 32 + lowSum ldds := rfl

/-- A window does not go back exactly when the low bits of its delta do not carry. -/
theorem le_add_mod_iff {ldd : Nat} (hprev : prevLast < 2 ^ 32) :
    prevLast ≤ (prevLast + ldd) % 2 ^ 32 ↔ prevLast + ldd % 2 ^ 32 < 2 ^ 32 := by
  omega

theorem FromDeltas.isChain_iff (h : FromDeltas prevLast ldds ms) (hprev : prevLast < 2 ^ 32) :
    (prevLast :: ms.map WindowMeta.lastDocid).IsChain (· ≤ ·) ↔ prevLast + lowSum ldds < 2 ^ 32 := by
  induction ms generalizing prevLast ldds with
  | nil =>
      cases ldds with
      | nil => simpa [lowSum] using hprev
      | cons ldd ldds => cases h
  | cons m ms ih =>
      cases ldds with
      | nil => cases h
      | cons ldd ldds =>
          obtain ⟨hlast, _, hrest⟩ := h
          have hlt : m.lastDocid < 2 ^ 32 := hlast ▸ Nat.mod_lt _ (Nat.two_pow_pos 32)
          rw [List.map_cons, List.isChain_cons_cons, ih hrest hlt, lowSum_cons, hlast,
            le_add_mod_iff hprev]
          omega

/-- Without a carry the last docids are the running sums. -/
theorem FromDeltas.lastOf_take (h : FromDeltas prevLast ldds ms)
    (hsum : prevLast + lowSum ldds < 2 ^ 32) (k : Nat) :
    lastOf prevLast (ms.take k) = prevLast + lowSum (ldds.take k) := by
  induction ms generalizing prevLast ldds k with
  | nil =>
      cases ldds with
      | nil => simp [lastOf, lowSum]
      | cons ldd ldds => cases h
  | cons m ms ih =>
      cases ldds with
      | nil => cases h
      | cons ldd ldds =>
          cases k with
          | zero => rfl
          | succ k =>
              obtain ⟨hlast, _, hrest⟩ := h
              rw [lowSum_cons] at hsum
              have heq : m.lastDocid = prevLast + ldd % 2 ^ 32 := by omega
              rw [List.take_succ_cons, List.take_succ_cons, lowSum_cons, lastOf_cons,
                ih hrest (by omega), heq, Nat.add_assoc]

/-! ## Reading rows -/

theorem prefixed_decodeWindowRow : Prefixed (decodeWindowRow hasFreq hasPrx prevLast) := by
  have hfreq : Prefixed (readFreqLocator hasFreq) :=
    Prefixed.ite (prefixed_getVarint64.bind fun _ => prefixed_getVarint64.bind fun _ =>
      prefixed_getVarint64.bind fun _ => prefixed_getFixed32.bind fun _ => Prefixed.pure _)
      (Prefixed.pure _)
  have hprx : Prefixed (readPrxLocator hasPrx) :=
    Prefixed.ite (prefixed_getVarint64.bind fun _ => prefixed_getVarint64.bind fun _ =>
      Prefixed.pure _) (Prefixed.pure _)
  refine prefixed_getVarint64.bind fun ldd => prefixed_getVarint64.bind fun docCount =>
    prefixed_getU8.bind fun mode => (Prefixed.lift _).bind fun _ => ?_
  refine prefixed_getVarint64.bind fun ddOff => prefixed_getVarint64.bind fun ddDiskLen =>
    prefixed_getVarint64.bind fun ddUncompLen => prefixed_getFixed32.bind fun crcDd => ?_
  exact hfreq.bind fun freq => hprx.bind fun prx => prefixed_getVarint64.bind fun maxFreq =>
    prefixed_getU8.bind fun maxNorm => Prefixed.pure _

theorem prefixed_readRows (n : Nat) : Prefixed (readRows hasFreq hasPrx n prevLast) := by
  induction n generalizing prevLast with
  | zero => exact Prefixed.pure _
  | succ n ih =>
      exact prefixed_decodeWindowRow.bind fun m => ih.bind fun ms => Prefixed.pure _

/-- A row that decodes states a delta, and the window ends at the low bits of the sum. -/
theorem decodeWindowRow_delta {bs rest : Bytes} {m : WindowMeta}
    (h : (decodeWindowRow hasFreq hasPrx prevLast).run bs = .ok (m, rest)) :
    ∃ ldd, (rowDelta hasFreq hasPrx).run bs = .ok (ldd, rest) ∧
      m.lastDocid = (prevLast + ldd) % 2 ^ 32 ∧ m.winBase = prevLast := by
  obtain ⟨ldd, b1, hldd, h⟩ := run_bind_eq_ok.mp h
  obtain ⟨docCount, b2, hcount, h⟩ := run_bind_eq_ok.mp h
  obtain ⟨mode, b3, hmode, h⟩ := run_bind_eq_ok.mp h
  obtain ⟨u, b4, hcheck, h⟩ := run_bind_eq_ok.mp h
  obtain ⟨ddOff, b5, h5, h⟩ := run_bind_eq_ok.mp h
  obtain ⟨ddDiskLen, b6, h6, h⟩ := run_bind_eq_ok.mp h
  obtain ⟨ddUncompLen, b7, h7, h⟩ := run_bind_eq_ok.mp h
  obtain ⟨crcDd, b8, h8, h⟩ := run_bind_eq_ok.mp h
  obtain ⟨freq, b9, h9, h⟩ := run_bind_eq_ok.mp h
  obtain ⟨prx, b10, h10, h⟩ := run_bind_eq_ok.mp h
  obtain ⟨maxFreq, b11, h11, h⟩ := run_bind_eq_ok.mp h
  obtain ⟨maxNorm, b12, h12, h⟩ := run_bind_eq_ok.mp h
  cases h
  refine ⟨ldd, ?_, rfl, rfl⟩
  have hzero : ∃ m, (decodeWindowRow hasFreq hasPrx 0).run bs = .ok (m, rest) :=
    ⟨_, run_bind_eq_ok.mpr ⟨_, _, hldd, run_bind_eq_ok.mpr ⟨_, _, hcount,
      run_bind_eq_ok.mpr ⟨_, _, hmode, run_bind_eq_ok.mpr ⟨_, _, hcheck,
      run_bind_eq_ok.mpr ⟨_, _, h5, run_bind_eq_ok.mpr ⟨_, _, h6, run_bind_eq_ok.mpr ⟨_, _, h7,
      run_bind_eq_ok.mpr ⟨_, _, h8, run_bind_eq_ok.mpr ⟨_, _, h9, run_bind_eq_ok.mpr ⟨_, _, h10,
      run_bind_eq_ok.mpr ⟨_, _, h11, run_bind_eq_ok.mpr ⟨_, _, h12, rfl⟩⟩⟩⟩⟩⟩⟩⟩⟩⟩⟩⟩⟩
  obtain ⟨m, hm⟩ := hzero
  rw [StateT.run, rowDelta, hldd, ok_bind]
  simp only
  rw [hm]
  rfl

theorem readRows_deltas {n : Nat} {bs rest : Bytes}
    (h : (readRows hasFreq hasPrx n prevLast).run bs = .ok (ms, rest)) :
    ∃ ldds, (readN (rowDelta hasFreq hasPrx) n).run bs = .ok (ldds, rest) ∧
      FromDeltas prevLast ldds ms := by
  induction n generalizing prevLast bs ms with
  | zero =>
      cases h
      exact ⟨[], rfl, trivial⟩
  | succ n ih =>
      obtain ⟨m, mid, hm, h⟩ := run_bind_eq_ok.mp h
      obtain ⟨ms, tail, hms, h⟩ := run_bind_eq_ok.mp h
      cases h
      obtain ⟨ldd, hldd, hlast, hbase⟩ := decodeWindowRow_delta hm
      obtain ⟨ldds, hldds, hfrom⟩ := ih hms
      refine ⟨ldd :: ldds, ?_, hlast, hbase, hfrom⟩
      exact run_bind_eq_ok.mpr ⟨ldd, mid, hldd, run_bind_eq_ok.mpr ⟨ldds, rest, hldds, rfl⟩⟩

theorem length_of_readRows {n : Nat} {bs rest : Bytes}
    (h : (readRows hasFreq hasPrx n prevLast).run bs = .ok (ms, rest)) : ms.length = n := by
  induction n generalizing prevLast bs ms with
  | zero =>
      cases h
      rfl
  | succ n ih =>
      obtain ⟨m, mid, hm, h⟩ := run_bind_eq_ok.mp h
      obtain ⟨ms, tail, hms, h⟩ := run_bind_eq_ok.mp h
      cases h
      rw [List.length_cons, ih hms]

/-- The rows of two blocks in a row. -/
theorem readRows_append {k n : Nat} {ms' : List WindowMeta} {bs mid rest : Bytes}
    (h : (readRows hasFreq hasPrx k prevLast).run bs = .ok (ms, mid))
    (h' : (readRows hasFreq hasPrx n (lastOf prevLast ms)).run mid = .ok (ms', rest)) :
    (readRows hasFreq hasPrx (k + n) prevLast).run bs = .ok (ms ++ ms', rest) := by
  induction k generalizing prevLast bs ms with
  | zero =>
      cases h
      rw [Nat.zero_add]
      exact h'
  | succ k ih =>
      obtain ⟨m, tail, hm, h⟩ := run_bind_eq_ok.mp h
      obtain ⟨ms, tail', hms, h⟩ := run_bind_eq_ok.mp h
      cases h
      rw [lastOf_cons] at h'
      rw [Nat.succ_add]
      exact run_bind_eq_ok.mpr ⟨m, tail, hm, run_bind_eq_ok.mpr ⟨_, rest, ih hms h', rfl⟩⟩

/-! ## Decoding the blocks -/

/-- Blocks that follow each other from the given offset. -/
def Contiguous : Nat → List SbDirRow → Prop
  | _, [] => True
  | off, r :: rows => r.blockOff = off ∧ Contiguous ((off + r.blockLen) % 2 ^ 64) rows

theorem yields_contiguous (n prevLast off : Nat) :
    Yields (readSbDirRows n prevLast off) fun r => r.1.length = n ∧ Contiguous off r.1 := by
  induction n generalizing prevLast off with
  | zero => exact Yields.pure ⟨rfl, trivial⟩
  | succ n ih =>
      refine (Yields.trivial getVarint64).bind fun ldd _ =>
        (Yields.trivial getVarint64).bind fun blockOff _ =>
        (Yields.trivial getVarint64).bind fun blockLen _ => ?_
      refine Yields.ite (fun _ => Yields.throw _) fun hcheck => ?_
      refine (ih _ _).bind fun r hr => Yields.pure ⟨congrArg Nat.succ hr.1, ?_, hr.2⟩
      by_contra hne
      exact hcheck (.inr hne)

variable {region : Bytes} {h : Header} {row : SbDirRow} {rows : List SbDirRow}
  {already off : Nat}

theorem decodeOneBlock_inv {block : Bytes} {last n : Nat}
    (hok : decodeOneBlock block h last n prevLast = .ok ms) :
    Reads (readRows h.hasFreq h.hasPrx n prevLast) block ms ∧ lastOf prevLast ms = last := by
  obtain ⟨ms', hparse, hok⟩ := bind_eq_ok hok
  split at hok
  · cases hok
  · rename_i hlast
    cases hok
    exact ⟨reads_of_parseAll (prefixed_readRows n) hparse, not_not.mp hlast⟩

/-- One block and the blocks behind it. -/
theorem decodeBlocks_inv
    (hok : decodeBlocks region h already prevLast (row :: rows) = .ok ms) :
    ∃ ms₁ ms₂, ms = ms₁ ++ ms₂ ∧ row.blockOff + row.blockLen ≤ region.length ∧
      Reads (readRows h.hasFreq h.hasPrx (min h.groupSize (h.n - already)) prevLast)
        ((region.drop row.blockOff).take row.blockLen) ms₁ ∧
      lastOf prevLast ms₁ = row.lastDocid ∧
      decodeBlocks region h (already + ms₁.length) (lastOf prevLast ms₁) rows = .ok ms₂ := by
  rw [decodeBlocks] at hok
  split at hok
  · cases hok
  · obtain ⟨block, hblock, htail⟩ := bind_eq_ok hok
    obtain ⟨ms₁, hone, htail'⟩ := bind_eq_ok htail
    obtain ⟨ms₂, hrest, hms⟩ := bind_eq_ok htail'
    cases hms
    rw [subslice] at hblock
    split at hblock
    · cases hblock
    · rename_i hinside
      cases hblock
      obtain ⟨hreads, hlast⟩ := decodeOneBlock_inv hone
      exact ⟨ms₁, ms₂, rfl, by omega, hreads, hlast, hrest⟩

theorem length_of_reads_readRows {n : Nat} {block : Bytes}
    (hreads : Reads (readRows hasFreq hasPrx n prevLast) block ms) : ms.length = n :=
  length_of_readRows (hreads [])

/-- The blocks' rows are the region's rows, one after the other. -/
theorem decodeBlocks_rows (hsize : region.length < 2 ^ 64) (hdir : Contiguous off rows)
    (hok : decodeBlocks region h already prevLast rows = .ok ms) :
    ∃ tail, (readRows h.hasFreq h.hasPrx ms.length prevLast).run (region.drop off) =
      .ok (ms, tail) := by
  induction rows generalizing off already prevLast ms with
  | nil =>
      cases hok
      exact ⟨_, rfl⟩
  | cons row rows ih =>
      obtain ⟨ms₁, ms₂, rfl, hinside, hreads, _, hrest⟩ := decodeBlocks_inv hok
      obtain ⟨rfl, hdir⟩ := hdir
      rw [Nat.mod_eq_of_lt (by omega)] at hdir
      obtain ⟨tail, htail⟩ := ih hdir hrest
      refine ⟨tail, ?_⟩
      have hsplit : region.drop row.blockOff = (region.drop row.blockOff).take row.blockLen ++
          region.drop (row.blockOff + row.blockLen) := by
        rw [← List.drop_drop, List.take_append_drop]
      rw [List.length_append]
      refine readRows_append ?_ htail
      rw [length_of_reads_readRows hreads, hsplit]
      exact hreads _

theorem ceil_sub_one {n g : Nat} (hg : 0 < g) (hn : g < n) :
    (n + g - 1) / g = (n - g + g - 1) / g + 1 := by
  rw [show n + g - 1 = n - g + g - 1 + g by omega, Nat.add_div_right _ hg]

/-- The blocks group the windows by the stated size, each under the docid of its row. -/
theorem decodeBlocks_grouped (hg : 0 < h.groupSize)
    (hcount : rows.length = (h.n - already + h.groupSize - 1) / h.groupSize)
    (hok : decodeBlocks region h already prevLast rows = .ok ms) :
    ∃ groups lasts, ms = groups.flatten ∧ Grouped h.groupSize groups lasts ∧
      lasts.map WindowMeta.lastDocid = rows.map SbDirRow.lastDocid := by
  induction rows generalizing already prevLast ms with
  | nil =>
      cases hok
      exact ⟨[], [], rfl, .nil, rfl⟩
  | cons row rows ih =>
      obtain ⟨ms₁, ms₂, rfl, _, hreads, hlast, hrest⟩ := decodeBlocks_inv hok
      have hlen := length_of_reads_readRows hreads
      have hleft : 0 < h.n - already := by
        by_contra hzero
        rw [Nat.eq_zero_of_not_pos hzero, Nat.zero_add, Nat.div_eq_of_lt (by omega)] at hcount
        cases hcount
      have hne : ms₁ ≠ [] := by
        rw [← List.length_pos_iff]
        omega
      obtain ⟨l, hl⟩ : ∃ l, ms₁.getLast? = some l := ⟨_, List.getLast?_eq_some_getLast hne⟩
      have hrow : l.lastDocid = row.lastDocid := by
        rw [← hlast, lastOf, hl]
        rfl
      rw [List.length_cons] at hcount
      by_cases hmore : h.groupSize < h.n - already
      · have hfull : ms₁.length = h.groupSize := by omega
        rw [ceil_sub_one hg hmore] at hcount
        obtain ⟨groups, lasts, hms, hgrouped, hlasts⟩ := ih (by
          rw [hfull, ← Nat.sub_sub]
          omega) hrest
        refine ⟨ms₁ :: groups, l :: lasts, ?_, .cons hl hfull hgrouped, ?_⟩
        · rw [hms, List.flatten_cons]
        · rw [List.map_cons, List.map_cons, hrow, hlasts]
      · have hone : (h.n - already + h.groupSize - 1) / h.groupSize = 1 := by
          apply Nat.div_eq_of_lt_le <;> omega
        have hnil : rows = [] := List.length_eq_zero_iff.mp (by omega)
        subst hnil
        cases hrest
        refine ⟨[ms₁], [l], ?_, .single hl (by omega), ?_⟩
        · rw [List.flatten_singleton, List.append_nil]
        · rw [List.map_singleton, List.map_singleton, hrow]

/-! ## What an accepted prelude states -/

theorem yields_header : Yields parseHeader fun h => h.n ≤ kMaxWindows ∧ 0 < h.groupSize ∧
    h.groupSize < 2 ^ 64 ∧ h.nSuper = ceilDiv h.n h.groupSize := by
  refine (Yields.trivial getU8).bind fun flags _ => (Yields.trivial getVarint64).bind fun n _ =>
    yields_getVarint64.bind fun groupSize hsize =>
    (Yields.trivial getVarint64).bind fun nSuper _ =>
    (Yields.trivial getVarint64).bind fun sbdirLen _ => ?_
  refine Yields.ite (fun _ => Yields.throw _) fun hcap => ?_
  refine Yields.ite (fun _ => Yields.throw _) fun hzero => ?_
  refine Yields.ite (fun _ => Yields.throw _) fun hsuper => Yields.pure ?_
  exact ⟨by simp only; omega, Nat.pos_of_ne_zero hzero, hsize, not_not.mp hsuper⟩

/-- A group count that wrapped around is no count of blocks that hold windows. -/
theorem ceilDiv_eq {n g : Nat} (hn : n ≤ kMaxWindows) (hg : 0 < g) (hg64 : g < 2 ^ 64)
    (hpos : 0 < n → ceilDiv n g ≠ 0) : ceilDiv n g = (n + g - 1) / g := by
  have hmax : kMaxWindows = 16777216 := by decide
  rcases Nat.lt_or_ge (n + g - 1) (2 ^ 64) with hlt | hge
  · rw [ceilDiv, Nat.mod_eq_of_lt hlt]
  · refine absurd ?_ (hpos (by omega))
    rw [ceilDiv, Nat.mod_eq_sub_mod hge, Nat.mod_eq_of_lt (by omega)]
    exact Nat.div_eq_of_lt (by omega)

/-- The windows of an accepted prelude, their blocks and the deltas behind them. -/
structure Accepted (d : StatedDirectory) (r : FrqPreludeReader) (groups : List (List WindowMeta))
    (lasts : List WindowMeta) : Prop where
  groupSize : r.groupSize = d.groupSize % 2 ^ 32
  count : r.windows.length ≤ kMaxWindows
  deltas : FromDeltas 0 d.deltas r.windows
  blocks : r.windows = groups.flatten
  grouped : Grouped d.groupSize groups lasts
  lastDocids : r.sbLastDocid = lasts.map WindowMeta.lastDocid

theorem accepted_of_open {prelude : Bytes} {r : FrqPreludeReader}
    (hopen : FrqPreludeReader.open prelude = .ok r) :
    ∃ d groups lasts, statedDirectory prelude = .ok d ∧ Accepted d r groups lasts := by
  obtain ⟨⟨h, rest⟩, hheader, hopen⟩ := bind_eq_ok hopen
  obtain ⟨u, _, hopen⟩ := bind_eq_ok hopen
  simp only at hopen
  split at hopen
  · cases hopen
  obtain ⟨dir, _, hopen⟩ := bind_eq_ok hopen
  obtain ⟨⟨rows, len⟩, hdir, hopen⟩ := bind_eq_ok hopen
  simp only at hopen
  split at hopen
  · cases hopen
  obtain ⟨region, hregion, hopen⟩ := bind_eq_ok hopen
  obtain ⟨windows, hwindows, hopen⟩ := bind_eq_ok hopen
  obtain ⟨⟨ddLen, freqLen⟩, _, hopen⟩ := bind_eq_ok hopen
  cases hopen
  obtain ⟨hn, hg, hg64, hsuper⟩ := yields_header prelude h rest hheader
  obtain ⟨_, hlen⟩ := yields_parseAll (yields_readSbDirRows h.nSuper 0 (Nat.two_pow_pos 64)) hdir
  obtain ⟨hcount, hcont⟩ := yields_parseAll (yields_contiguous h.nSuper 0 0) hdir
  simp only at hlen hcount hcont
  obtain ⟨windows', hblocks, hall⟩ := bind_eq_ok hwindows
  split at hall
  · cases hall
  rename_i hlength
  rw [not_not] at hlength
  cases hall
  rw [subslice] at hregion
  split at hregion
  · cases hregion
  rename_i hinside
  cases hregion
  set start := (prelude.length - rest.length + h.sbdirLen + 4) % 2 ^ 64 with hstart
  have hsize : ((prelude.drop start).take len).length < 2 ^ 64 :=
    Nat.lt_of_le_of_lt (List.length_take_le _ _) hlen
  -- the rows behind the checksum
  obtain ⟨tail, hrows⟩ := decodeBlocks_rows hsize hcont hblocks
  rw [List.drop_zero] at hrows
  obtain ⟨used, hused, hreads⟩ := prefixed_readRows _ _ _ _ hrows
  have hfull := hreads (tail ++ (prelude.drop start).drop len)
  rw [← List.append_assoc, ← hused, List.take_append_drop, hlength] at hfull
  obtain ⟨ldds, hldds, hfrom⟩ := readRows_deltas hfull
  -- the blocks
  have hceil : ceilDiv h.n h.groupSize = (h.n + h.groupSize - 1) / h.groupSize := by
    apply ceilDiv_eq hn hg hg64
    intro hpos hzero
    rw [← hsuper, ← hcount, List.length_eq_zero_iff] at hzero
    subst hzero
    cases hblocks
    rw [List.length_nil] at hlength
    omega
  obtain ⟨groups, lasts, hflat, hgrouped, hlasts⟩ := decodeBlocks_grouped hg
    (by rw [hcount, hsuper, hceil, Nat.sub_zero]) hblocks
  refine ⟨{ groupSize := h.groupSize, deltas := ldds }, groups, lasts, ?_, rfl,
    by simp only; omega, hfrom, hflat, hgrouped, hlasts.symm⟩
  rw [statedDirectory, hheader, ok_bind]
  simp only
  rw [← hstart, hldds]
  rfl

/-! ## When the windows are consistent -/

section Locating

variable {d : StatedDirectory} {r : FrqPreludeReader} {groups : List (List WindowMeta)}
  {lasts : List WindowMeta}

theorem Accepted.ascend_iff (ha : Accepted d r groups lasts) :
    (r.windows.map WindowMeta.lastDocid).Pairwise (· ≤ ·) ↔ lowSum d.deltas < 2 ^ 32 := by
  have hchain := ha.deltas.isChain_iff (Nat.two_pow_pos 32)
  rw [Nat.zero_add] at hchain
  rw [← hchain, ← List.isChain_iff_pairwise]
  exact ⟨isChain_zero, fun h => h.of_cons⟩

/-- Fewer windows than a group has room for are in one block. -/
theorem Grouped.single_of_lt {α : Type} {g : Nat} {groups : List (List α)} {lasts : List α}
    (hgrouped : Grouped g groups lasts) (hlt : groups.flatten.length < g) :
    lasts = groups.flatten.getLast?.toList := by
  cases hgrouped with
  | nil => rfl
  | single last size =>
      rw [List.flatten_singleton, last]
      rfl
  | cons last size rest =>
      rw [List.flatten_cons, List.length_append] at hlt
      omega

theorem lowSum_take_add_drop (k : Nat) (ldds : List Nat) :
    lowSum (ldds.take k) + lowSum (ldds.drop k) = lowSum ldds := by
  rw [lowSum, lowSum, lowSum, ← List.sum_append, ← List.map_append, List.take_append_drop]

/-- The reader's scan of the only block. -/
theorem Accepted.locateWindow_big (ha : Accepted d r groups lasts) (hbig : 2 ^ 32 ≤ d.groupSize)
    {last : WindowMeta} (hlast : r.windows.getLast? = some last) (docid : Nat) :
    r.locateWindow docid = if docid > last.lastDocid then none else
      (r.windows.take r.groupSize).findIdx? fun m => decide (docid ≤ m.lastDocid) := by
  have hmax : kMaxWindows = 16777216 := by decide
  have hcount := ha.count
  have hlasts := Grouped.single_of_lt ha.grouped (by rw [← ha.blocks]; omega)
  rw [← ha.blocks, hlast] at hlasts
  rw [FrqPreludeReader.locateWindow, hlast, ha.lastDocids, hlasts]
  simp only [Option.toList_some, List.map_singleton]
  split
  · rfl
  · rename_i hle
    rw [List.takeWhile_cons_of_neg (by simpa using hle)]
    simp only [List.length_nil, Nat.zero_mul, List.drop_zero, Nat.zero_add, Option.map_id']

/-- One docid is located right in the only block when it is past all windows or the scan
reaches it. -/
theorem Accepted.locate_big_at (ha : Accepted d r groups lasts) (hbig : 2 ^ 32 ≤ d.groupSize)
    (hsorted : (r.windows.map WindowMeta.lastDocid).Pairwise (· ≤ ·))
    {last : WindowMeta} (hlast : r.windows.getLast? = some last) (docid : Nat) :
    r.locateWindow docid = firstReaching r.windows docid ↔ last.lastDocid < docid ∨
      ∃ b, (r.windows.take r.groupSize).getLast? = some b ∧ docid ≤ b.lastDocid := by
  have hmono := pairwise_reaching docid hsorted
  rw [ha.locateWindow_big hbig hlast]
  split
  · rename_i hgt
    refine iff_of_true ?_ (.inl hgt)
    exact (findIdx?_eq_none_of_last hlast hmono (by simpa using hgt)).symm
  · have hiff := @findIdx?_take_iff _ _ r.groupSize _ _ hlast hmono
    simp only [decide_eq_true_eq, decide_eq_false_iff_not, not_le] at hiff
    exact hiff

/-- With the windows ascending, the only block is scanned far enough exactly when the
windows behind the scan do not move on. -/
theorem Accepted.locate_big_iff (ha : Accepted d r groups lasts) (hbig : 2 ^ 32 ≤ d.groupSize)
    (hsum : lowSum d.deltas < 2 ^ 32) :
    (∀ docid < 2 ^ 32, r.locateWindow docid = firstReaching r.windows docid) ↔
      d.deltas = [] ∨ 0 < r.groupSize ∧ lowSum (d.deltas.drop r.groupSize) = 0 := by
  have hsorted := ha.ascend_iff.mpr hsum
  have hlen := ha.deltas.length_eq
  have hsplit := lowSum_take_add_drop r.groupSize d.deltas
  have htake := ha.deltas.lastOf_take (by omega) r.groupSize
  have htotal := ha.deltas.lastOf_take (by omega) r.windows.length
  rw [List.take_length, ← hlen, List.take_length, Nat.zero_add] at htotal
  rw [Nat.zero_add] at htake
  cases hlast : r.windows.getLast? with
  | none =>
      have hnil := List.getLast?_eq_none_iff.mp hlast
      rw [hnil, List.length_nil, List.length_eq_zero_iff] at hlen
      refine iff_of_true (fun docid _ => ?_) (.inl hlen)
      rw [FrqPreludeReader.locateWindow, hlast, hnil]
      rfl
  | some last =>
      have hne : r.windows ≠ [] := by
        rintro hnil
        rw [hnil] at hlast
        cases hlast
      rw [lastOf, hlast, Option.map_some, Option.getD_some] at htotal
      constructor
      · intro hlocate
        obtain hlt | ⟨b, hb, hle⟩ := (ha.locate_big_at hbig hsorted hlast last.lastDocid).mp
          (hlocate last.lastDocid (by omega))
        · omega
        · rw [lastOf, hb, Option.map_some, Option.getD_some] at htake
          refine .inr ⟨Nat.pos_of_ne_zero fun hzero => ?_, by omega⟩
          rw [hzero, List.take_zero] at hb
          cases hb
      · rintro (hnil | ⟨hpos, hzero⟩) docid _
        · rw [hnil, List.length_nil, eq_comm, List.length_eq_zero_iff] at hlen
          exact absurd hlen hne
        · have hscan : r.windows.take r.groupSize ≠ [] := by
            rw [← List.length_pos_iff] at hne ⊢
            rw [List.length_take]
            omega
          have hb := List.getLast?_eq_some_getLast hscan
          rw [lastOf, hb, Option.map_some, Option.getD_some] at htake
          rw [ha.locate_big_at hbig hsorted hlast]
          by_cases hgt : last.lastDocid < docid
          · exact .inl hgt
          · exact .inr ⟨_, hb, by omega⟩

end Locating

/-- **When an accepted prelude is consistent**: its deltas' low 32 bits do not carry, and
with a group size above 32 bits no window moves on behind the part of the only block that
is scanned. -/
theorem open_consistent_iff {prelude : Bytes} {r : FrqPreludeReader}
    (hopen : FrqPreludeReader.open prelude = .ok r) :
    Consistent r ↔ ∃ d, statedDirectory prelude = .ok d ∧ d.Fits := by
  obtain ⟨d, groups, lasts, hstated, ha⟩ := accepted_of_open hopen
  have hfits : (∃ d', statedDirectory prelude = .ok d' ∧ d'.Fits) ↔ d.Fits := by
    rw [hstated]
    exact ⟨fun ⟨d', heq, h⟩ => Except.ok.inj heq ▸ h, fun h => ⟨d, rfl, h⟩⟩
  have hbases := ha.deltas.bases
  rw [hfits, StatedDirectory.Fits, ← ha.groupSize]
  rcases Nat.lt_or_ge d.groupSize (2 ^ 32) with hsmall | hbig
  · have hg : r.groupSize = d.groupSize := ha.groupSize.trans (Nat.mod_eq_of_lt hsmall)
    have hgrouped := ha.grouped
    rw [← hg] at hgrouped
    constructor
    · intro hr
      exact ⟨ha.ascend_iff.mp hr.ascend, .inl hsmall⟩
    · rintro ⟨hsum, _⟩
      have hsorted := ha.ascend_iff.mpr hsum
      exact ⟨hsorted, hbases, fun docid _ =>
        locateWindow_of_grouped ha.blocks hgrouped ha.lastDocids hsorted docid⟩
  · constructor
    · intro hr
      have hsum := ha.ascend_iff.mp hr.ascend
      exact ⟨hsum, .inr ((ha.locate_big_iff hbig hsum).mp hr.locate)⟩
    · rintro ⟨hsum, hscan⟩
      have hscan := hscan.resolve_left (by omega)
      exact ⟨ha.ascend_iff.mpr hsum, hbases, (ha.locate_big_iff hbig hsum).mpr hscan⟩

/-- Two windows of one super-block, with the deltas and the last docid given. -/
def twoRows (first second last : Nat) : Bytes :=
  let row := fun delta => putVarint64 delta ++ [1, 0, 0, 0, 0, 0, 0, 0, 0, 1, 0]
  let rows := row first ++ row second
  let covered := [0, 2, 2, 1, 3, UInt8.ofNat last, 0, UInt8.ofNat rows.length]
  covered ++ putFixed32 (crc32c covered) ++ rows

theorem open_consistent_iff_twoRows :
    ∃ r, FrqPreludeReader.open (twoRows 10 5 15) = .ok r ∧ Consistent r := by
  have hopen : (FrqPreludeReader.open (twoRows 10 5 15)).isOk = true := by decide +kernel
  cases hr : FrqPreludeReader.open (twoRows 10 5 15) with
  | error e =>
      rw [hr] at hopen
      cases hopen
  | ok r =>
      refine ⟨r, rfl, (open_consistent_iff hr).mpr ⟨⟨2, [10, 5]⟩, ?_, by decide⟩⟩
      rfl

/-- The second delta is 2³² - 5: the windows end at 10 and at 5. -/
theorem open_twoRows_backward :
    ∃ r, FrqPreludeReader.open (twoRows 10 (2 ^ 32 - 5) 5) = .ok r ∧ ¬ Consistent r := by
  have hopen : (FrqPreludeReader.open (twoRows 10 (2 ^ 32 - 5) 5)).map
      (fun r => r.windows.map WindowMeta.lastDocid) = .ok [10, 5] := by decide +kernel
  cases hr : FrqPreludeReader.open (twoRows 10 (2 ^ 32 - 5) 5) with
  | error e =>
      rw [hr] at hopen
      cases hopen
  | ok r =>
      rw [hr] at hopen
      have hlasts : r.windows.map WindowMeta.lastDocid = [10, 5] := Except.ok.inj hopen
      refine ⟨r, rfl, fun hcons => ?_⟩
      have hascend := hcons.ascend
      rw [hlasts] at hascend
      revert hascend
      decide

end Snii.Format.FrqPrelude
