import Mathlib.Data.List.Forall2
import Mathlib.Data.List.TakeWhile
import Snii.Query.ScoringQuerySelective
import Snii.Query.WandExhaustive

/-!
# Lazy WAND equals eager WAND

A lazy cursor follows an eager one (`Follows`): same position, same bounds, and
every cached slot holds the posting the eager list has there, the windows being
the blocks of that list.  Each operation of the lazy loop keeps this relation
and returns what the eager one returns, so the two loops run in lock step; a
read of a slot that is not cached would end the lazy loop with an error, and
none occurs.
-/

namespace Snii.Query.ScoringQuery

open Snii.Common LazyTermCursor

/-! ## Blocks and offsets -/

/-- The virtual position at which a window's postings start. -/
def startOf (blocks : List (List TermPosting)) (w : Nat) : Nat := (blocks.take w).flatten.length

/-- The next window starts behind this one. -/
theorem startOf_succ {blocks : List (List TermPosting)} {w : Nat} {blk : List TermPosting}
    (h : blocks[w]? = some blk) : startOf blocks (w + 1) = startOf blocks w + blk.length := by
  obtain ⟨hw, rfl⟩ := List.getElem?_eq_some_iff.mp h
  rw [startOf, startOf, List.take_succ_eq_append_getElem hw, List.flatten_append, List.length_append]
  simp

/-- The windows end with the postings. -/
theorem startOf_length (blocks : List (List TermPosting)) :
    startOf blocks blocks.length = blocks.flatten.length := by
  rw [startOf, List.take_length]

/-- A window's postings are a slice of the whole list. -/
theorem flatten_drop_startOf {blocks : List (List TermPosting)} {w : Nat} {blk : List TermPosting}
    (h : blocks[w]? = some blk) :
    blocks.flatten.drop (startOf blocks w) = blk ++ (blocks.drop (w + 1)).flatten := by
  obtain ⟨hw, rfl⟩ := List.getElem?_eq_some_iff.mp h
  have hsplit : blocks.flatten =
      (blocks.take w).flatten ++ (blocks[w] ++ (blocks.drop (w + 1)).flatten) := by
    conv_lhs => rw [← List.take_append_drop w blocks, List.flatten_append,
      List.drop_eq_getElem_cons hw, List.flatten_cons]
  rw [hsplit, startOf, List.drop_left]

/-- `takeWhile` stops at the first element that fails. -/
private theorem takeWhile_stops {α : Type} {p : α → Bool} {l : List α} {x : α}
    (h : l[(l.takeWhile p).length]? = some x) : p x = false := by
  induction l with
  | nil => simp at h
  | cons a l ih =>
      by_cases ha : p a = true
      · rw [List.takeWhile_cons_of_pos ha] at h
        exact ih (by simpa using h)
      · rw [List.takeWhile_cons_of_neg ha] at h
        obtain rfl : a = x := by simpa using h
        simpa using ha

private theorem takeWhile_holds {α : Type} {p : α → Bool} {l : List α} {x : α} {i : Nat}
    (hi : i < (l.takeWhile p).length) (h : l[i]? = some x) : p x = true := by
  have hpre : (l.takeWhile p)[i]? = some x := by
    obtain ⟨t, ht⟩ := List.takeWhile_prefix p (l := l)
    rw [← ht, List.getElem?_append_left hi] at h
    exact h
  exact List.mem_takeWhile_imp (List.mem_of_getElem? hpre)

/-! ## The relation -/

/-- A lazy cursor beside the eager cursor over the same blocks. -/
structure Follows (blocks : List (List TermPosting)) (c : LazyTermCursor) (e : TermCursor) :
    Prop where
  postings : e.postings = blocks.flatten
  ascending : blocks.flatten.Pairwise fun p q => p.docid < q.docid
  nonempty : ∀ blk ∈ blocks, blk ≠ []
  windows : c.windows = e.windows
  count : e.windows.length = blocks.length
  last : ∀ (w : Nat) (blk : List TermPosting) (b : WindowBound), blocks[w]? = some blk →
    e.windows[w]? = some b →
    blk.getLast?.map TermPosting.docid = some b.lastDocid
  pos : c.pos = e.pos
  starts : c.winStart = (List.range (blocks.length + 1)).map (startOf blocks)
  size : c.postings.length = blocks.flatten.length
  fetchedSize : c.fetched.length = blocks.length
  cached : ∀ w : Nat, c.fetched[w]? = some true →
    ∀ i : Nat, startOf blocks w ≤ i → i < startOf blocks (w + 1) →
    c.postings[i]? = some (blocks.flatten[i]?)
  source : ∀ (w : Nat) (blk : List TermPosting), blocks[w]? = some blk → c.fetched[w]? = some false →
    ∃ d, c.source[w]? = some d ∧ decodeWindow d = .ok blk

variable {blocks : List (List TermPosting)} {c : LazyTermCursor} {e : TermCursor}

/-- The lazy cursor knows how many postings there are. -/
theorem Follows.total (h : Follows blocks c e) : c.totalPostings = e.postings.length := by
  rw [totalPostings, h.starts, h.postings, List.range_succ, List.map_append]
  simp [startOf_length]

/-- And where each window starts. -/
theorem Follows.winStart_getD (h : Follows blocks c e) {w : Nat} (hw : w ≤ blocks.length) :
    c.winStart.getD w 0 = startOf blocks w := by
  rw [h.starts]
  simp [Nat.lt_succ_of_le hw]

/-- The window that holds a position. -/
theorem Follows.windowOf (h : Follows blocks c e) {p : Nat} (hp : p < e.postings.length) :
    c.windowOf p < blocks.length ∧ startOf blocks (c.windowOf p) ≤ p ∧
      p < startOf blocks (c.windowOf p + 1) := by
  have hget : ∀ w ≤ blocks.length, c.winStart[w]? = some (startOf blocks w) := by
    intro w hw
    rw [h.starts]
    simp [Nat.lt_succ_of_le hw]
  have hlen : c.winStart.length = blocks.length + 1 := by
    rw [h.starts, List.length_map, List.length_range]
  have hfirst : 0 < (c.winStart.takeWhile fun s => s ≤ p).length := by
    by_contra hzero
    have := takeWhile_stops (p := fun s => decide (s ≤ p))
      (show c.winStart[(c.winStart.takeWhile fun s => s ≤ p).length]? = some (startOf blocks 0) by
        rw [Nat.eq_zero_of_not_pos hzero]
        exact hget 0 (Nat.zero_le _))
    simp [startOf] at this
  have hend : (c.winStart.takeWhile fun s => s ≤ p).length ≤ blocks.length := by
    by_contra hgt
    have := takeWhile_holds (p := fun s => decide (s ≤ p)) (Nat.lt_of_not_le hgt)
      (hget blocks.length (Nat.le_refl _))
    rw [startOf_length, ← h.postings] at this
    simp at this
    omega
  have hw : c.windowOf p + 1 = (c.winStart.takeWhile fun s => s ≤ p).length := by
    rw [LazyTermCursor.windowOf]
    omega
  refine ⟨by omega, ?_, ?_⟩
  · have := takeWhile_holds (p := fun s => decide (s ≤ p)) (show c.windowOf p < _ by omega)
      (hget (c.windowOf p) (by omega))
    simpa using this
  · have := takeWhile_stops (p := fun s => decide (s ≤ p))
      (show c.winStart[(c.winStart.takeWhile fun s => s ≤ p).length]? =
        some (startOf blocks (c.windowOf p + 1)) by
          rw [← hw]
          exact hget _ (by omega))
    simpa using this

/-! ## Materialising a window -/

theorem startOf_le_total {w : Nat} (blocks : List (List TermPosting)) :
    startOf blocks w ≤ blocks.flatten.length := by
  rw [startOf]
  conv_rhs => rw [← List.take_append_drop w blocks, List.flatten_append, List.length_append]
  exact Nat.le_add_right _ _

/-- Windows start in their order. -/
theorem startOf_mono (blocks : List (List TermPosting)) {v w : Nat} (h : v ≤ w) :
    startOf blocks v ≤ startOf blocks w := by
  have hpre : (blocks.take v).flatten <+: (blocks.take w).flatten := by
    have : blocks.take v = (blocks.take w).take v := by rw [List.take_take, Nat.min_eq_left h]
    rw [this]
    conv_rhs => rw [← List.take_append_drop v (blocks.take w), List.flatten_append]
    exact List.prefix_append _ _
  exact hpre.length_le

/-- A window's postings, position by position. -/
theorem getElem?_flatten_of_window {w i : Nat} {blk : List TermPosting}
    (h : blocks[w]? = some blk) (hi : i < blk.length) :
    blocks.flatten[startOf blocks w + i]? = blk[i]? := by
  rw [← List.getElem?_drop, flatten_drop_startOf h, List.getElem?_append_left hi]

/-- **Materialising** succeeds, caches the window and changes nothing else. -/
theorem Follows.materialize (h : Follows blocks c e) {w : Nat} (hw : w < blocks.length) :
    ∃ c', c.materializeWindow w = .ok c' ∧ Follows blocks c' e ∧ c'.fetched[w]? = some true := by
  have hfw : w < c.fetched.length := by rw [h.fetchedSize]; exact hw
  have hblk : blocks[w]? = some blocks[w] := List.getElem?_eq_getElem hw
  unfold materializeWindow
  by_cases hf : c.fetched[w] = true
  · have hget : c.fetched.getD w false = true := by simp [hfw, hf]
    rw [if_pos hget]
    exact ⟨c, rfl, h, by rw [List.getElem?_eq_getElem hfw, hf]⟩
  · have hfalse : c.fetched[w]? = some false := by
      rw [List.getElem?_eq_getElem hfw]
      simpa using hf
    have hget : ¬ c.fetched.getD w false = true := by simp [hfw, hf]
    obtain ⟨d, hd, hdec⟩ := h.source w _ hblk hfalse
    have hs := h.winStart_getD (Nat.le_of_lt hw)
    have hs1 : c.winStart.getD (w + 1) 0 = startOf blocks (w + 1) := h.winStart_getD hw
    have hsucc := startOf_succ hblk
    rw [if_neg hget]
    simp only [hd, hdec, ok_bind, hs, hs1]
    rw [if_neg (by omega)]
    refine ⟨_, rfl, ?_, List.getElem?_set_self hfw⟩
    have hle := startOf_le_total (w := w + 1) blocks
    have hstart : (c.postings.take (startOf blocks w)).length = startOf blocks w := by
      rw [List.length_take, h.size]
      omega
    have hnew : ∀ i : Nat, startOf blocks w ≤ i → i < startOf blocks (w + 1) →
        (c.postings.take (startOf blocks w) ++ blocks[w].map some ++
          c.postings.drop (startOf blocks w + blocks[w].length))[i]? =
            some (blocks.flatten[i]?) := by
      intro i hlo hhi
      obtain ⟨j, rfl⟩ := Nat.exists_eq_add_of_le hlo
      have hj : j < blocks[w].length := by omega
      rw [List.append_assoc, List.getElem?_append_right (by omega), hstart, Nat.add_sub_cancel_left,
        List.getElem?_append_left (by rw [List.length_map]; exact hj), List.getElem?_map,
        getElem?_flatten_of_window hblk hj, List.getElem?_eq_getElem hj]
      rfl
    have hold : ∀ i : Nat, i < startOf blocks w ∨ startOf blocks (w + 1) ≤ i →
        (c.postings.take (startOf blocks w) ++ blocks[w].map some ++
          c.postings.drop (startOf blocks w + blocks[w].length))[i]? = c.postings[i]? := by
      rintro i (hlt | hge)
      · rw [List.append_assoc, List.getElem?_append_left (by omega), List.getElem?_take_of_lt hlt]
      · have hlen : (c.postings.take (startOf blocks w) ++ blocks[w].map some).length =
            startOf blocks (w + 1) := by
          rw [List.length_append, hstart, List.length_map, hsucc]
        rw [List.getElem?_append_right (by omega), hlen, List.getElem?_drop, ← hsucc,
          Nat.add_sub_cancel' hge]
    exact
      { postings := h.postings, ascending := h.ascending, nonempty := h.nonempty
        windows := h.windows, count := h.count, last := h.last, pos := h.pos, starts := h.starts
        size := by
          simp only [List.length_append, List.length_map, List.length_drop, hstart, h.size]
          omega
        fetchedSize := by rw [List.length_set]; exact h.fetchedSize
        cached := by
          intro v hv i hlo hhi
          by_cases hvw : v = w
          · subst hvw
            exact hnew i hlo hhi
          · rw [List.getElem?_set_ne (Ne.symm hvw)] at hv
            have hout : i < startOf blocks w ∨ startOf blocks (w + 1) ≤ i := by
              rcases Nat.lt_or_gt_of_ne hvw with hlt | hgt
              · have := startOf_mono blocks (show v + 1 ≤ w by omega)
                omega
              · have := startOf_mono blocks (show w + 1 ≤ v by omega)
                omega
            rw [hold i hout]
            exact h.cached v hv i hlo hhi
        source := by
          intro v blk hv hfetched
          have hvw : v ≠ w := by
            rintro rfl
            rw [List.getElem?_set_self hfw] at hfetched
            simp at hfetched
          rw [List.getElem?_set_ne (Ne.symm hvw)] at hfetched
          exact h.source v blk hv hfetched }

/-- A cached slot holds the eager posting. -/
theorem Follows.slot (h : Follows blocks c e) {w p : Nat} (hw : c.fetched[w]? = some true)
    (hlo : startOf blocks w ≤ p) (hhi : p < startOf blocks (w + 1)) (hp : p < e.postings.length) :
    c.slot p = .ok e.postings[p] := by
  have hcache := h.cached w hw p hlo hhi
  rw [← h.postings, List.getElem?_eq_getElem hp] at hcache
  simp only [LazyTermCursor.slot, hcache]

/-! ## The current document -/

/-- A cursor inside its postings stands at a document. -/
theorem currentDoc_of_lt (hp : e.pos < e.postings.length) :
    currentDoc e = e.postings[e.pos].docid := by
  simp only [currentDoc, List.getElem?_eq_getElem hp]

/-- Behind them it stands at the end marker. -/
theorem currentDoc_of_le (hp : e.postings.length ≤ e.pos) : currentDoc e = uint32Max := by
  simp only [currentDoc, List.getElem?_eq_none hp]

/-- **The current docid** is the eager one, and its slot is cached from then on. -/
theorem Follows.lazyCurrentDoc (h : Follows blocks c e) :
    ∃ c', c.lazyCurrentDoc = .ok (currentDoc e, c') ∧ Follows blocks c' e ∧
      ∀ hp : e.pos < e.postings.length, c'.slot c'.pos = .ok e.postings[e.pos] := by
  unfold LazyTermCursor.lazyCurrentDoc
  by_cases hp : e.postings.length ≤ e.pos
  · rw [if_pos (by rw [h.total, h.pos]; exact hp), currentDoc_of_le hp]
    exact ⟨c, rfl, h, fun hlt => absurd hlt (Nat.not_lt.mpr hp)⟩
  · have hlt := Nat.lt_of_not_le hp
    rw [if_neg (by rw [h.total, h.pos]; exact hp)]
    obtain ⟨hw, hlo, hhi⟩ := h.windowOf hlt
    rw [h.pos]
    obtain ⟨c', hmat, h', hfetched⟩ := h.materialize hw
    have hslot : c'.slot c'.pos = .ok e.postings[e.pos] := by
      rw [h'.pos]
      exact h'.slot hfetched hlo hhi hlt
    refine ⟨c', ?_, h', fun _ => hslot⟩
    rw [hmat, ok_bind, hslot, ok_bind, currentDoc_of_lt hlt]
    rfl

/-! ## Skipping -/

/-- Postings below the target can be skipped before the walk. -/
theorem skipTo_of_skipped {target m : Nat} (hm : e.pos ≤ m) (hlen : m ≤ e.postings.length)
    (hall : ∀ (i : Nat) (p : TermPosting), e.pos ≤ i → i < m → e.postings[i]? = some p →
      p.docid < target) :
    skipTo target { e with pos := m } = skipTo target e := by
  have hsplit : e.postings.drop e.pos = (e.postings.drop e.pos).take (m - e.pos) ++
      e.postings.drop m := by
    conv_lhs => rw [← List.take_append_drop (m - e.pos) (e.postings.drop e.pos), List.drop_drop]
    rw [Nat.add_sub_cancel' hm]
  have hbelow : ∀ p ∈ (e.postings.drop e.pos).take (m - e.pos),
      decide (p.docid < target) = true := by
    intro p hp
    obtain ⟨i, hi⟩ := List.mem_iff_getElem?.mp hp
    have hlt : i < m - e.pos := by
      have := (List.getElem?_eq_some_iff.mp hi).1
      rw [List.length_take] at this
      omega
    rw [List.getElem?_take_of_lt hlt, List.getElem?_drop] at hi
    simpa using hall (e.pos + i) p (by omega) (by omega) hi
  have hcount : ((e.postings.drop e.pos).take (m - e.pos)).length = m - e.pos := by
    rw [List.length_take, List.length_drop]
    omega
  have hwalk : ((e.postings.drop e.pos).takeWhile fun p => p.docid < target).length =
      m - e.pos + ((e.postings.drop m).takeWhile fun p => p.docid < target).length := by
    rw [hsplit, List.takeWhile_append_of_pos hbelow, List.length_append, hcount]
  simp only [skipTo, hwalk, TermCursor.mk.injEq, true_and]
  omega

/-- No docid of a window exceeds the last docid its bound states. -/
theorem Follows.docid_le_last (h : Follows blocks c e) {w i : Nat} {b : WindowBound}
    {p : TermPosting} (hw : w < blocks.length) (hb : e.windows[w]? = some b)
    (hlo : startOf blocks w ≤ i) (hhi : i < startOf blocks (w + 1))
    (hp : e.postings[i]? = some p) : p.docid ≤ b.lastDocid := by
  have hblk : blocks[w]? = some blocks[w] := List.getElem?_eq_getElem hw
  have hsucc := startOf_succ hblk
  obtain ⟨j, rfl⟩ := Nat.exists_eq_add_of_le hlo
  have hj : j < blocks[w].length := by omega
  rw [h.postings, getElem?_flatten_of_window hblk hj] at hp
  have hasc : blocks[w].Pairwise fun p q => p.docid < q.docid :=
    h.ascending.sublist (List.sublist_flatten_of_mem (List.getElem_mem hw))
  obtain ⟨q, hq, hqb⟩ := Option.map_eq_some_iff.mp (h.last w _ b hblk hb)
  rw [← hqb]
  obtain ⟨_, rfl⟩ := List.getElem?_eq_some_iff.mp hp
  rw [List.getLast?_eq_getElem?] at hq
  obtain ⟨hn, rfl⟩ := List.getElem?_eq_some_iff.mp hq
  rcases Nat.lt_or_eq_of_le (show j ≤ blocks[w].length - 1 by omega) with hlt | heq
  · exact (List.pairwise_iff_getElem.mp hasc _ _ hj hn hlt).le
  · simp only [heq, Nat.le_refl]

/-- Moving both cursors. -/
theorem Follows.withPos (h : Follows blocks c e) (m : Nat) :
    Follows blocks { c with pos := m } { e with pos := m } :=
  { postings := h.postings, ascending := h.ascending, nonempty := h.nonempty, windows := h.windows
    count := h.count, last := h.last, pos := rfl, starts := h.starts, size := h.size
    fetchedSize := h.fetchedSize, cached := h.cached, source := h.source }

/-- **Whole windows** are skipped by their last docid alone. -/
theorem Follows.skipWindows (target fuel : Nat) {v : Nat} (h : Follows blocks c e)
    (hv : startOf blocks v ≤ e.pos) (hfuel : blocks.length < fuel + v) :
    ∃ c' m, LazyTermCursor.skipWindows target fuel c = .ok c' ∧
      Follows blocks c' { e with pos := m } ∧
      skipTo target { e with pos := m } = skipTo target e ∧
      (m < e.postings.length → ∀ b, e.windows[c'.windowOf m]? = some b → target ≤ b.lastDocid) := by
  induction fuel generalizing c e v with
  | zero =>
      have hall : startOf blocks v = blocks.flatten.length := by
        rw [startOf, List.take_of_length_le (by omega)]
      have hend : e.postings.length ≤ e.pos := by
        rw [h.postings, ← hall]
        exact hv
      exact ⟨c, e.pos, rfl, h, rfl, fun hlt => absurd hlt (Nat.not_lt.mpr hend)⟩
  | succ fuel ih =>
      rw [LazyTermCursor.skipWindows]
      by_cases hp : e.postings.length ≤ e.pos
      · rw [if_pos (by rw [h.total, h.pos]; exact hp)]
        exact ⟨c, e.pos, rfl, h, rfl, fun hlt => absurd hlt (Nat.not_lt.mpr hp)⟩
      · have hlt := Nat.lt_of_not_le hp
        rw [if_neg (by rw [h.total, h.pos]; exact hp), h.pos]
        obtain ⟨hw, hlo, hhi⟩ := h.windowOf hlt
        have hwb : c.windowOf e.pos < e.windows.length := by rw [h.count]; exact hw
        have hb : e.windows[c.windowOf e.pos]? = some e.windows[c.windowOf e.pos] :=
          List.getElem?_eq_getElem hwb
        have hcb : c.windows[c.windowOf e.pos]? = some e.windows[c.windowOf e.pos] := by
          rw [h.windows]
          exact hb
        rw [hcb]
        by_cases hreach : e.windows[c.windowOf e.pos].lastDocid ≥ target
        · simp only [if_pos hreach]
          refine ⟨c, e.pos, rfl, h, rfl, fun _ b hb' => ?_⟩
          rw [hb] at hb'
          obtain rfl := Option.some.inj hb'
          exact hreach
        · simp only [if_neg hreach]
          have hvw : v ≤ c.windowOf e.pos := by
            by_contra hgt
            have := startOf_mono blocks (show c.windowOf e.pos + 1 ≤ v by omega)
            omega
          have hs1 : c.winStart.getD (c.windowOf e.pos + 1) 0 =
              startOf blocks (c.windowOf e.pos + 1) := h.winStart_getD hw
          rw [hs1]
          have hskip : skipTo target { e with pos := startOf blocks (c.windowOf e.pos + 1) } =
              skipTo target e := by
            refine skipTo_of_skipped hhi.le ?_ fun i p hi hi' hpi => ?_
            · rw [h.postings]
              exact startOf_le_total blocks
            · have := h.docid_le_last hw hb (hlo.trans hi) hi' hpi
              omega
          obtain ⟨c', m, hrun, hfol, hsk, hland⟩ :=
            @ih _ _ (c.windowOf e.pos + 1) (h.withPos (startOf blocks (c.windowOf e.pos + 1)))
              (Nat.le_refl _) (by omega)
          exact ⟨c', m, hrun, hfol, hsk.trans hskip, hland⟩

/-- The last posting of a window has the docid its bound states. -/
theorem Follows.docid_last (h : Follows blocks c e) {w : Nat} {b : WindowBound}
    {p : TermPosting} (hw : w < blocks.length) (hb : e.windows[w]? = some b)
    (hp : e.postings[startOf blocks (w + 1) - 1]? = some p) : p.docid = b.lastDocid := by
  have hblk : blocks[w]? = some blocks[w] := List.getElem?_eq_getElem hw
  have hsucc := startOf_succ hblk
  have hpos : 0 < blocks[w].length := List.length_pos_iff.mpr (h.nonempty _ (List.getElem_mem hw))
  obtain ⟨q, hq, hqb⟩ := Option.map_eq_some_iff.mp (h.last w _ b hblk hb)
  rw [List.getLast?_eq_getElem?] at hq
  have hidx : startOf blocks (w + 1) - 1 = startOf blocks w + (blocks[w].length - 1) := by omega
  rw [hidx, h.postings, getElem?_flatten_of_window hblk (by omega), hq] at hp
  rw [← hqb, Option.some.inj hp]

/-- A target that is reached is not passed. -/
theorem skipTo_of_reached {target : Nat} {p : TermPosting} (hp : e.postings[e.pos]? = some p)
    (hge : ¬ p.docid < target) : skipTo target e = e := by
  obtain ⟨hlt, rfl⟩ := List.getElem?_eq_some_iff.mp hp
  have hnil : (e.postings.drop e.pos).takeWhile (fun p => p.docid < target) = [] := by
    rw [List.drop_eq_getElem_cons hlt, List.takeWhile_cons_of_neg (by simpa using hge)]
  simp only [skipTo, hnil, List.length_nil, Nat.add_zero]

/-- **Within the landing window** the walk stays among cached slots. -/
theorem Follows.skipSlots (target fuel : Nat) {w : Nat} {b : WindowBound}
    (h : Follows blocks c e) (hw : w < blocks.length) (hfetched : c.fetched[w]? = some true)
    (hb : e.windows[w]? = some b) (hreach : target ≤ b.lastDocid)
    (hlo : startOf blocks w ≤ e.pos) (hhi : e.pos < startOf blocks (w + 1))
    (hfuel : startOf blocks (w + 1) ≤ e.pos + fuel) :
    ∃ c', LazyTermCursor.skipSlots target fuel c = .ok c' ∧
      Follows blocks c' (skipTo target e) := by
  induction fuel generalizing c e with
  | zero => omega
  | succ fuel ih =>
      have hlt : e.pos < e.postings.length := by
        rw [h.postings]
        exact Nat.lt_of_lt_of_le hhi (startOf_le_total blocks)
      have hget : e.postings[e.pos]? = some e.postings[e.pos] := List.getElem?_eq_getElem hlt
      rw [LazyTermCursor.skipSlots, if_neg (by rw [h.total, h.pos]; omega), h.pos,
        h.slot hfetched hlo hhi hlt, ok_bind]
      by_cases hbelow : e.postings[e.pos].docid < target
      · rw [if_pos hbelow]
        -- the window's last posting reaches the target, so this is not the last
        have hnext : e.pos + 1 < startOf blocks (w + 1) := by
          by_contra hge
          have hidx : startOf blocks (w + 1) - 1 = e.pos := by omega
          have := h.docid_last hw hb (by rw [hidx]; exact hget)
          omega
        have hskip : skipTo target { e with pos := e.pos + 1 } = skipTo target e := by
          refine skipTo_of_skipped (Nat.le_succ _) hlt fun i p hi hi' hpi => ?_
          obtain rfl : i = e.pos := by omega
          rw [hget] at hpi
          rw [← Option.some.inj hpi]
          exact hbelow
        rw [← hskip]
        exact ih (h.withPos (e.pos + 1)) hfetched hb (Nat.le_succ_of_le hlo) hnext (by
          show _ ≤ e.pos + 1 + fuel
          omega)
      · rw [if_neg hbelow, skipTo_of_reached hget hbelow]
        exact ⟨c, rfl, h⟩

/-- **The lazy skip** lands where the eager walk does. -/
theorem Follows.lazySkipTo (h : Follows blocks c e) (target : Nat) :
    ∃ c', c.lazySkipTo target = .ok c' ∧ Follows blocks c' (skipTo target e) := by
  obtain ⟨c1, m, hrun, h1, hskip, hland⟩ := h.skipWindows target (c.windows.length + 1)
    (show startOf blocks 0 ≤ e.pos by simp [startOf]) (by rw [h.windows, h.count]; omega)
  rw [LazyTermCursor.lazySkipTo, hrun, ok_bind, ← hskip]
  have htotal : c1.totalPostings = e.postings.length := h1.total
  have hpos : c1.pos = m := h1.pos
  by_cases hm : e.postings.length ≤ m
  · rw [if_pos (by omega)]
    have hend : skipTo target { e with pos := m } = { e with pos := m } := by
      simp [skipTo, List.drop_eq_nil_of_le hm]
    rw [hend]
    exact ⟨c1, rfl, h1⟩
  · have hlt := Nat.lt_of_not_le hm
    rw [if_neg (by omega), hpos]
    obtain ⟨hw, hlo, hhi⟩ := h1.windowOf (show m < e.postings.length from hlt)
    have hwb : c1.windowOf m < e.windows.length := by rw [h.count]; exact hw
    have hb : e.windows[c1.windowOf m]? = some e.windows[c1.windowOf m] :=
      List.getElem?_eq_getElem hwb
    obtain ⟨c2, hmat, h2, hfetched⟩ := h1.materialize hw
    rw [hmat, ok_bind]
    refine h2.skipSlots target _ hw hfetched hb (hland hlt _ hb) hlo hhi ?_
    have hle := startOf_le_total (w := c1.windowOf m + 1) blocks
    rw [h2.total, h2.pos]
    rw [← h.postings] at hle
    show startOf blocks (c1.windowOf m + 1) ≤ m + (e.postings.length - m + 1)
    omega

/-- **The bounds agree** before any window is decoded. -/
theorem Follows.lazyTermBoundAt (h : Follows blocks c e) (docid : Nat) :
    c.lazyTermBoundAt docid = termBoundAt e docid := by
  cases hfind : e.windows.find? (fun w => docid ≤ w.lastDocid) with
  | none => simp [LazyTermCursor.lazyTermBoundAt, termBoundAt, h.windows, hfind]
  | some b => simp [LazyTermCursor.lazyTermBoundAt, termBoundAt, h.windows, hfind]

/-! ## The loop -/

/-- Lazy cursors beside eager ones. -/
abbrev FollowsAll (cs : List LazyTermCursor) (es : List TermCursor) : Prop :=
  List.Forall₂ (fun c e => ∃ blocks, Follows blocks c e) cs es

/-- Asking for the documents decodes windows and changes no answer. -/
theorem currentDocs_follows {cs : List LazyTermCursor} {es : List TermCursor}
    (h : FollowsAll cs es) :
    ∃ cs', currentDocs cs = .ok (es.map currentDoc, cs') ∧ FollowsAll cs' es := by
  induction h with
  | nil => exact ⟨[], rfl, List.Forall₂.nil⟩
  | cons hc _ ih =>
      obtain ⟨blocks, hc⟩ := hc
      obtain ⟨c', hcur, hc', _⟩ := hc.lazyCurrentDoc
      obtain ⟨cs', hrest, hcs'⟩ := ih
      refine ⟨c' :: cs', ?_, List.Forall₂.cons ⟨blocks, hc'⟩ hcs'⟩
      rw [currentDocs, hcur, ok_bind, hrest]
      rfl

/-- Picking by index keeps the pairing. -/
private theorem forall₂_filterMap_getElem? {α β : Type} {R : α → β → Prop} {xs : List α}
    {ys : List β} (h : List.Forall₂ R xs ys) (order : List Nat) :
    List.Forall₂ R (order.filterMap fun i => xs[i]?) (order.filterMap fun i => ys[i]?) := by
  have hlen := h.length_eq
  induction order with
  | nil => exact List.Forall₂.nil
  | cons i order ih =>
      by_cases hi : i < xs.length
      · have hi' : i < ys.length := by omega
        rw [List.filterMap_cons_some (List.getElem?_eq_getElem hi),
          List.filterMap_cons_some (List.getElem?_eq_getElem hi')]
        exact List.Forall₂.cons (h.get hi hi') ih
      · rw [List.filterMap_cons_none (List.getElem?_eq_none (by omega)),
          List.filterMap_cons_none (List.getElem?_eq_none (by omega))]
        exact ih

/-- The sort puts both lists in the same order. -/
theorem selectiveSortByDoc_follows (srt : DocSort) {cs : List LazyTermCursor}
    {es : List TermCursor} (h : FollowsAll cs es) :
    ∃ cs', selectiveSortByDoc srt cs =
        .ok (((srt.apply currentDoc es).head?.map currentDoc).getD uint32Max, cs') ∧
      FollowsAll cs' (srt.apply currentDoc es) := by
  obtain ⟨cs1, hdocs, h1⟩ := currentDocs_follows h
  refine ⟨_, ?_, forall₂_filterMap_getElem? h1 (srt.order (es.map currentDoc))⟩
  rw [selectiveSortByDoc, hdocs, ok_bind]
  apply congrArg (fun d => Except.ok (d, _))
  cases ho : srt.order (es.map currentDoc) with
  | nil => simp [DocSort.apply, ho]
  | cons i rest =>
      have hi : i < es.length := by
        have := (srt.perm (es.map currentDoc)).mem_iff.mp (ho ▸ List.mem_cons_self)
        simpa using this
      simp [DocSort.apply, ho, List.filterMap_cons_some (List.getElem?_eq_getElem hi), hi]

/-- **The pivots agree.** -/
theorem selectivePivot_follows (theta bound : ℚ) {cs : List LazyTermCursor}
    {es : List TermCursor} (h : FollowsAll cs es) :
    ∃ cs', selectivePivot theta bound cs = .ok (findPivot theta bound es, cs') ∧
      FollowsAll cs' es := by
  induction h generalizing bound with
  | nil => exact ⟨[], rfl, List.Forall₂.nil⟩
  | @cons c e cs es hc hrest ih =>
      obtain ⟨blocks, hc⟩ := hc
      obtain ⟨c', hcur, hc', _⟩ := hc.lazyCurrentDoc
      rw [selectivePivot, hcur, ok_bind, findPivot]
      simp only [hc'.lazyTermBoundAt]
      by_cases hend : currentDoc e = uint32Max
      · rw [if_pos hend, if_pos hend]
        exact ⟨c' :: cs, rfl, List.Forall₂.cons ⟨blocks, hc'⟩ hrest⟩
      · rw [if_neg hend, if_neg hend]
        by_cases hreach : bound + termBoundAt e (currentDoc e) ≥ theta
        · rw [if_pos hreach, if_pos hreach]
          exact ⟨c' :: cs, rfl, List.Forall₂.cons ⟨blocks, hc'⟩ hrest⟩
        · rw [if_neg hreach, if_neg hreach]
          obtain ⟨cs', hpivot, hcs'⟩ := ih (bound + termBoundAt e (currentDoc e))
          rw [hpivot, ok_bind]
          exact ⟨c' :: cs', rfl, List.Forall₂.cons ⟨blocks, hc'⟩ hcs'⟩

/-- **The scores at the pivot agree.** -/
theorem selectiveScorePivot_follows {pivotDoc : Nat} (hpivot : pivotDoc ≠ uint32Max)
    {cs : List LazyTermCursor} {es : List TermCursor} (h : FollowsAll cs es) :
    ∃ cs', selectiveScorePivot pivotDoc cs = .ok ((es.map (scoreAt pivotDoc)).sum, cs') ∧
      FollowsAll cs' (es.map (advanceAt pivotDoc)) := by
  induction h with
  | nil => exact ⟨[], rfl, List.Forall₂.nil⟩
  | @cons c e cs es hc _ ih =>
      obtain ⟨blocks, hc⟩ := hc
      obtain ⟨c', hcur, hc', hslot⟩ := hc.lazyCurrentDoc
      obtain ⟨cs', hrest, hcs'⟩ := ih
      rw [selectiveScorePivot, hcur, ok_bind, hrest]
      simp only [List.map_cons, List.sum_cons]
      by_cases hat : currentDoc e = pivotDoc
      · have hlt : e.pos < e.postings.length := by
          by_contra hge
          exact hpivot (hat ▸ currentDoc_of_le (Nat.le_of_not_lt hge))
        have hscore : scoreAt pivotDoc e = e.postings[e.pos].score := by
          simp [scoreAt, hat, List.getElem?_eq_getElem hlt]
        have hadv : advanceAt pivotDoc e = { e with pos := e.pos + 1 } := by simp [advanceAt, hat]
        simp only [if_pos hat, hslot hlt, ok_bind, hscore, hadv]
        refine ⟨_, rfl, List.Forall₂.cons ⟨blocks, ?_⟩ hcs'⟩
        have := hc'.withPos (e.pos + 1)
        rw [← hc'.pos] at this ⊢
        exact this
      · have hscore : scoreAt pivotDoc e = 0 := by simp [scoreAt, hat]
        have hadv : advanceAt pivotDoc e = e := by simp [advanceAt, hat]
        simp only [if_neg hat, ok_bind, hscore, hadv, zero_add]
        exact ⟨_, rfl, List.Forall₂.cons ⟨blocks, hc'⟩ hcs'⟩

/-- **Both advance alike.** -/
theorem selectiveAdvanceLagging_follows (pivotDoc : Nat) {cs : List LazyTermCursor}
    {es : List TermCursor} (h : FollowsAll cs es) :
    ∃ cs', selectiveAdvanceLagging pivotDoc cs = .ok cs' ∧
      FollowsAll cs' (advanceLagging pivotDoc es) := by
  induction h with
  | nil => exact ⟨[], rfl, List.Forall₂.nil⟩
  | @cons c e cs es hc hrest ih =>
      obtain ⟨blocks, hc⟩ := hc
      obtain ⟨c', hcur, hc', _⟩ := hc.lazyCurrentDoc
      rw [selectiveAdvanceLagging, hcur, ok_bind, advanceLagging]
      by_cases hlag : currentDoc e < pivotDoc
      · obtain ⟨c2, hskip, hc2⟩ := hc'.lazySkipTo pivotDoc
        simp only [if_pos hlag, hskip, ok_bind]
        exact ⟨c2 :: cs, rfl, List.Forall₂.cons ⟨blocks, hc2⟩ hrest⟩
      · obtain ⟨cs', hadv, hcs'⟩ := ih
        simp only [if_neg hlag, hadv, ok_bind]
        exact ⟨c' :: cs', rfl, List.Forall₂.cons ⟨blocks, hc'⟩ hcs'⟩

/-- **One iteration** of the two loops: both are done, or both leave cursors that
follow each other and offer the same entry. -/
theorem selectiveStep_follows (srt : DocSort) (theta : ℚ) {cs : List LazyTermCursor}
    {es : List TermCursor} (h : FollowsAll cs es) :
    (wandStep srt theta es = none ∧ selectiveStep srt theta cs = .ok none) ∨
      ∃ out cs', wandStep srt theta es = some out ∧
        selectiveStep srt theta cs = .ok (some (cs', out.offer)) ∧ FollowsAll cs' out.cursors := by
  obtain ⟨cs1, hsort, h1⟩ := selectiveSortByDoc_follows srt h
  rw [selectiveStep, hsort, ok_bind, wandStep]
  cases hes : srt.apply currentDoc es with
  | nil =>
      rw [hes] at h1
      cases h1
      exact Or.inl ⟨rfl, rfl⟩
  | cons front rest =>
      rw [hes] at h1
      have hne : ¬ cs1 = [] := by
        rintro rfl
        cases h1
      simp only [List.head?_cons, Option.map_some, Option.getD_some, hne, false_or]
      by_cases hend : currentDoc front = uint32Max
      · rw [if_pos hend, if_pos hend]
        exact Or.inl ⟨rfl, rfl⟩
      · rw [if_neg hend, if_neg hend]
        obtain ⟨cs2, hpivot, h2⟩ := selectivePivot_follows theta 0 h1
        rw [hpivot, ok_bind]
        cases findPivot theta 0 (front :: rest) with
        | none => exact Or.inl ⟨rfl, rfl⟩
        | some pivotDoc =>
            right
            simp only
            by_cases hat : currentDoc front = pivotDoc
            · obtain ⟨cs3, hscore, h3⟩ := selectiveScorePivot_follows (hat ▸ hend) h2
              simp only [if_pos hat, hscore, ok_bind]
              exact ⟨_, cs3, rfl, rfl, h3⟩
            · obtain ⟨cs3, hadv, h3⟩ := selectiveAdvanceLagging_follows pivotDoc h2
              simp only [if_neg hat, hadv, ok_bind]
              exact ⟨_, cs3, rfl, rfl, h3⟩

/-- **The two loops** make the same offers and leave the same queue. -/
theorem selectiveWandLoop_follows (srt : DocSort) (fuel : Nat) {cs : List LazyTermCursor}
    {es : List TermCursor} (h : FollowsAll cs es) (topk : TopK) :
    selectiveWandLoop srt fuel cs topk = (wandLoop srt fuel es topk).map .ok := by
  induction fuel generalizing cs es topk with
  | zero => rfl
  | succ fuel ih =>
      rw [selectiveWandLoop, wandLoop]
      rcases selectiveStep_follows srt topk.threshold h with ⟨hw, hs⟩ | ⟨out, cs', hw, hs, h'⟩
      · rw [hw, hs]
        rfl
      · rw [hw, hs]
        simp only [ih h', Option.map_map]
        rfl

/-! ## Building the cursors -/

/-- What the prelude and the regions of a window must agree on: the window is not
empty, and its row states its number of documents and its last docid. -/
structure WindowData.Truthful (d : WindowData) : Prop where
  nonempty : d.postings ≠ []
  docCount : d.docCount = d.postings.length
  lastDocid : d.postings.getLast?.map TermPosting.docid = some d.lastDocid

/-- The postings of a term in the index. -/
def TermSource.postings : TermSource → List TermPosting
  | .missing => []
  | .slim postings => postings
  | .windowed ws => ws.flatMap WindowData.postings

/-- A term of an index: docids ascend, the entry's document frequency counts them
in 32 bits, and the prelude of a windowed term states the truth. -/
structure TermSource.Ok (t : TermSource) : Prop where
  ascending : t.postings.Pairwise fun p q => p.docid < q.docid
  fits : t.postings.length < 2 ^ 32
  truthful : ∀ ws, t = .windowed ws → ∀ d ∈ ws, d.Truthful

/-- A truthful window decodes to its postings. -/
theorem decodeWindow_truthful {d : WindowData} (h : d.Truthful) :
    decodeWindow d = .ok d.postings := by
  rw [decodeWindow, if_neg (by rw [h.docCount]; simp)]

/-- Truthful windows decode to all postings. -/
theorem readWindowed_truthful {ws : List WindowData} (h : ∀ d ∈ ws, d.Truthful) :
    readWindowed ws = .ok (ws.flatMap WindowData.postings) := by
  induction ws with
  | nil => rfl
  | cons d ws ih =>
      rw [readWindowed, decodeWindow_truthful (h d List.mem_cons_self), ok_bind,
        ih fun x hx => h x (List.mem_cons_of_mem _ hx), ok_bind, List.flatMap_cons]
      rfl

theorem WindowData.Truthful.docCount_ne_zero {d : WindowData} (h : d.Truthful) :
    d.docCount ≠ 0 := by
  rw [h.docCount]
  exact fun hz => h.nonempty (List.length_eq_zero_iff.mp hz)

/-- Every window of a truthful prelude has its bound. -/
theorem buildWindowBounds_lastDocid {ws : List WindowData} (h : ∀ d ∈ ws, d.Truthful) :
    (buildWindowBounds ws).map WindowBound.lastDocid = ws.map WindowData.lastDocid := by
  have hgo : ∀ (l : List WindowData) (n : Nat), (∀ d ∈ l, d.Truthful) →
      ((l.zipIdx n).filterMap fun (x : WindowData × Nat) =>
        if x.1.docCount = 0 then none
        else some ({ firstDocid := x.1.winBase + (if x.2 = 0 then 0 else 1)
                     lastDocid := x.1.lastDocid, maxScore := x.1.maxScore
                     blockMax := true } : WindowBound)).map WindowBound.lastDocid =
        l.map WindowData.lastDocid := by
    intro l
    induction l with
    | nil => exact fun _ _ => rfl
    | cons d l ih =>
        intro n hl
        have hd := (hl d List.mem_cons_self).docCount_ne_zero
        have hrest := ih (n + 1) fun x hx => hl x (List.mem_cons_of_mem _ hx)
        simp only [List.zipIdx_cons, List.filterMap_cons, if_neg hd, List.map_cons, hrest]
  exact hgo ws 0 h

/-- The running sums of the document counts are the blocks' offsets. -/
theorem countOffsets_eq {blocks : List (List TermPosting)} {acc : Nat}
    (hfit : acc + blocks.flatten.length < 2 ^ 32) :
    countOffsets acc (blocks.map List.length) =
      (List.range (blocks.length + 1)).map fun w => acc + startOf blocks w := by
  induction blocks generalizing acc with
  | nil => simp [countOffsets, startOf]
  | cons blk blocks ih =>
      rw [List.flatten_cons, List.length_append] at hfit
      rw [List.map_cons, countOffsets, Nat.mod_eq_of_lt (by omega), ih (by omega),
        List.length_cons, @List.range_succ_eq_map (blocks.length + 1), List.map_cons, List.map_map]
      have hnext : ∀ w, acc + blk.length + startOf blocks w =
          acc + startOf (blk :: blocks) (w + 1) := by
        intro w
        rw [startOf, startOf, List.take_succ_cons, List.flatten_cons, List.length_append,
          Nat.add_assoc]
      exact congrArg (acc :: ·) (List.map_congr_left fun w _ => hnext w)

/-- **A windowed term**: the lazy cursor starts out following the eager one. -/
theorem buildLazyWindowed_follows {ws : List WindowData} (h : (TermSource.windowed ws).Ok) :
    Follows (ws.map WindowData.postings) (buildLazyWindowed ws)
      { postings := ws.flatMap WindowData.postings, windows := buildWindowBounds ws } := by
  have htrue := h.truthful ws rfl
  have hflat : ws.flatMap WindowData.postings = (ws.map WindowData.postings).flatten :=
    List.flatMap_def
  have hbounds := buildWindowBounds_lastDocid htrue
  have hlen : (buildWindowBounds ws).length = ws.length := by
    have := congrArg List.length hbounds
    simpa using this
  have hcounts : (ws.map WindowData.docCount).filter (· ≠ 0) =
      (ws.map WindowData.postings).map List.length := by
    rw [List.map_map, List.filter_eq_self.mpr]
    · exact List.map_congr_left fun d hd => (htrue d hd).docCount
    · intro n hn
      obtain ⟨d, hd, rfl⟩ := List.mem_map.mp hn
      simpa using (htrue d hd).docCount_ne_zero
  have hstart : (buildLazyWindowed ws).winStart =
      (List.range ((ws.map WindowData.postings).length + 1)).map
        (startOf (ws.map WindowData.postings)) := by
    show countOffsets 0 ((ws.map WindowData.docCount).filter (· ≠ 0)) = _
    rw [hcounts, countOffsets_eq (by rw [Nat.zero_add, ← hflat]; exact h.fits)]
    simp
  exact
    { postings := hflat, ascending := by rw [← hflat]; exact h.ascending
      nonempty := by
        intro blk hblk
        obtain ⟨d, hd, rfl⟩ := List.mem_map.mp hblk
        exact (htrue d hd).nonempty
      windows := rfl, count := by rw [List.length_map]; exact hlen
      last := by
        intro w blk b hblk hb
        rw [List.getElem?_map] at hblk
        obtain ⟨d, hd, rfl⟩ := Option.map_eq_some_iff.mp hblk
        have hmap := congrArg (·[w]?) hbounds
        simp only [List.getElem?_map, hb, hd, Option.map_some] at hmap
        rw [(htrue d (List.mem_of_getElem? hd)).lastDocid, hmap]
      pos := rfl, starts := hstart
      size := by
        show (List.replicate ((buildLazyWindowed ws).winStart.getLast?.getD 0) none).length = _
        rw [List.length_replicate, hstart, List.range_succ, List.map_append, List.map_singleton,
          List.getLast?_concat, Option.getD_some, startOf_length]
      fetchedSize := by
        show (List.replicate (buildWindowBounds ws).length false).length = _
        rw [List.length_replicate, hlen, List.length_map]
      cached := by
        intro w hw
        have := List.mem_replicate.mp (List.mem_of_getElem? hw)
        exact absurd this.2 (by decide)
      source := by
        intro w blk hblk _
        rw [List.getElem?_map] at hblk
        obtain ⟨d, hd, rfl⟩ := Option.map_eq_some_iff.mp hblk
        exact ⟨d, hd, decodeWindow_truthful (htrue d (List.mem_of_getElem? hd))⟩ }

theorem singleWindowFallback_last {postings : List TermPosting} (hne : postings ≠ []) :
    ∃ b, singleWindowFallback postings = [b] ∧
      postings.getLast?.map TermPosting.docid = some b.lastDocid := by
  obtain ⟨first, rest, rfl⟩ := List.exists_cons_of_ne_nil hne
  rw [singleWindowFallback, List.head?_cons, List.getLast?_eq_some_getLast (by simp)]
  exact ⟨_, rfl, rfl⟩

/-- **A slim term**: its one window is cached from the start. -/
theorem buildLazySlim_follows {postings : List TermPosting} (h : (TermSource.slim postings).Ok)
    (hne : postings ≠ []) :
    Follows [postings] (buildLazySlim postings)
      { postings := postings, windows := singleWindowFallback postings } := by
  obtain ⟨b, hb, hlast⟩ := singleWindowFallback_last hne
  have hflat : [postings].flatten = postings := by simp
  have hmod : postings.length % 2 ^ 32 = postings.length := Nat.mod_eq_of_lt h.fits
  exact
    { postings := hflat.symm, ascending := by rw [hflat]; exact h.ascending
      nonempty := by simpa using hne
      windows := rfl, count := by rw [hb]; rfl
      last := by
        intro w blk b' hblk hb'
        rw [hb] at hb'
        cases w with
        | zero =>
            obtain rfl := Option.some.inj hblk
            obtain rfl := Option.some.inj hb'
            exact hlast
        | succ w => simp at hblk
      pos := rfl
      starts := by
        show [0, postings.length % 2 ^ 32] = _
        rw [hmod]
        simp [List.range_succ, startOf]
      size := by
        show (postings.map some).length = _
        rw [List.length_map, hflat]
      fetchedSize := rfl
      cached := by
        intro w _ i hlo hhi
        have hi : i < postings.length := by
          have := startOf_le_total (w := w + 1) [postings]
          rw [hflat] at this
          omega
        show (postings.map some)[i]? = _
        rw [List.getElem?_map, hflat, List.getElem?_eq_getElem hi]
        rfl
      source := by
        intro w blk hblk hfetched
        cases w with
        | zero => exact absurd hfetched (by simp [buildLazySlim])
        | succ w => simp at hblk }

/-- The cursors of both paths: the eager build succeeds, keeps the same terms, and
leaves every cursor at its first posting. -/
theorem buildCursors_follows {terms : List TermSource} (h : ∀ t ∈ terms, t.Ok) :
    ∃ es, buildCursors terms = .ok es ∧ FollowsAll (selectiveBuildCursors terms) es ∧
      ∀ e ∈ es, e.pos = 0 := by
  induction terms with
  | nil => exact ⟨[], rfl, List.Forall₂.nil, by simp⟩
  | cons t terms ih =>
      obtain ⟨es, hbuild, hfol, hpos⟩ := ih fun x hx => h x (List.mem_cons_of_mem _ hx)
      have hkeep : ∀ {c : LazyTermCursor} {e : TermCursor} {blocks : List (List TermPosting)},
          buildLazyCursor t = some c → buildCursor t = .ok (some e) → Follows blocks c e →
          e.postings ≠ [] → e.pos = 0 →
          ∃ es', buildCursors (t :: terms) = .ok es' ∧
            FollowsAll (selectiveBuildCursors (t :: terms)) es' ∧ ∀ e ∈ es', e.pos = 0 := by
        intro c e blocks hlazy heager hf hne hzero
        have hlen : 0 < e.postings.length := List.length_pos_iff.mpr hne
        refine ⟨e :: es, ?_, ?_, ?_⟩
        · simp only [buildCursors, heager, hbuild, ok_bind, if_neg hne]
          rfl
        · rw [selectiveBuildCursors, List.filterMap_cons_some hlazy,
            List.filter_cons_of_pos (by rw [hf.total]; simpa using hlen)]
          exact List.Forall₂.cons ⟨blocks, hf⟩ hfol
        · intro x hx
          rcases List.mem_cons.mp hx with rfl | hx
          · exact hzero
          · exact hpos x hx
      have ht := h t List.mem_cons_self
      cases t with
      | missing =>
          refine ⟨es, ?_, hfol, hpos⟩
          simp only [buildCursors, buildCursor, hbuild, ok_bind]
          rfl
      | slim postings =>
          by_cases hne : postings = []
          · subst hne
            refine ⟨es, ?_, hfol, hpos⟩
            simp only [buildCursors, buildCursor, hbuild, ok_bind]
            rfl
          · exact hkeep rfl rfl (buildLazySlim_follows ht hne) hne rfl
      | windowed ws =>
          have hread := readWindowed_truthful (ht.truthful ws rfl)
          by_cases hne : ws = []
          · subst hne
            refine ⟨es, ?_, hfol, hpos⟩
            simp only [buildCursors, buildCursor, hread, hbuild, ok_bind]
            rfl
          · have hf := buildLazyWindowed_follows ht
            have hw : buildWindowBounds ws ≠ [] := by
              have hlen : (buildWindowBounds ws).length = ws.length := by
                simpa using hf.count
              intro hnil
              rw [hnil] at hlen
              exact hne (List.length_eq_zero_iff.mp hlen.symm)
            refine hkeep rfl ?_ hf ?_ rfl
            · simp only [buildCursor, hread, ok_bind, if_neg hw]
              rfl
            · obtain ⟨d, ws, rfl⟩ := List.exists_cons_of_ne_nil hne
              have hd := (ht.truthful _ rfl d List.mem_cons_self).nonempty
              simp [hd]

/-- Both loops start with the same budget. -/
theorem sum_totalPostings {cs : List LazyTermCursor} {es : List TermCursor}
    (h : FollowsAll cs es) (hpos : ∀ e ∈ es, e.pos = 0) :
    (cs.map totalPostings).sum = workLeft es := by
  induction h with
  | nil => rfl
  | @cons c e cs es hc _ ih =>
      obtain ⟨blocks, hc⟩ := hc
      have hzero := hpos e List.mem_cons_self
      rw [List.map_cons, List.sum_cons, hc.total, ih fun x hx => hpos x (List.mem_cons_of_mem _ hx),
        workLeft, workLeft, List.map_cons, List.sum_cons, TermCursor.remaining, hzero,
        List.drop_zero]

/-- **Lazy WAND equals eager WAND.**  On every index whose preludes state the truth
the lazy loop ends without an error, so it read no slot before its window was
materialised; it made the offers of the eager loop, in the same order, and
returns the same list. -/
theorem scoringQueryWandSelective_eq (srt : DocSort) (k : Nat) {terms : List TermSource}
    (hterms : ∀ t ∈ terms, t.Ok) :
    (∃ offers topk, selectiveTerms srt k terms = some (.ok (offers, topk)) ∧
      wandTerms srt k terms = some (.ok (offers, topk))) ∧
    scoringQueryWandSelective srt k terms = scoringQueryWandTerms srt k terms := by
  obtain ⟨es, hbuild, hfol, hpos⟩ := buildCursors_follows hterms
  obtain ⟨offs, _, t, hloop, _⟩ :=
    @wandLoop_reach srt (workLeft es + 1) es { k := k, heap := [] } (Nat.lt_succ_self _)
  have heager : wandTerms srt k terms = some (.ok (offs, t)) := by
    simp only [wandTerms, hbuild, wandRun, hloop, Option.map_some]
  have hlazy : selectiveTerms srt k terms = some (.ok (offs, t)) := by
    simp only [selectiveTerms, sum_totalPostings hfol hpos]
    rw [selectiveWandLoop_follows srt _ hfol, hloop]
    rfl
  refine ⟨⟨offs, t, hlazy, heager⟩, ?_⟩
  rw [scoringQueryWandSelective, scoringQueryWandTerms, hlazy, heager]

/-- A windowed term of three windows, of which the second can be skipped unread,
a slim term, and a term the index lacks. -/
def skippingTerms : List TermSource :=
  [.windowed [⟨0, 3, 2, 4, [⟨1, 4⟩, ⟨3, 2⟩]⟩, ⟨3, 7, 2, 1, [⟨5, 1⟩, ⟨7, 1⟩]⟩,
      ⟨7, 9, 1, 6, [⟨9, 6⟩]⟩],
    .slim [⟨3, 2⟩, ⟨9, 5⟩], .missing]

theorem scoringQueryWandSelective_eq_skipping :
    scoringQueryWandSelective DocSort.stable 1 skippingTerms =
        scoringQueryWandTerms DocSort.stable 1 skippingTerms ∧
      scoringQueryWandSelective DocSort.stable 1 skippingTerms = some (.ok [⟨9, 11⟩]) := by
  have hterms : ∀ t ∈ skippingTerms, t.Ok := by
    simp only [skippingTerms, List.mem_cons, List.not_mem_nil, or_false, forall_eq_or_imp,
      forall_eq]
    refine ⟨⟨by decide +kernel, by decide +kernel, ?_⟩, ⟨by decide +kernel, by decide +kernel, ?_⟩,
      ⟨by decide +kernel, by decide +kernel, ?_⟩⟩
    · intro ws hws
      obtain rfl := TermSource.windowed.inj hws
      simp only [List.mem_cons, List.not_mem_nil, or_false, forall_eq_or_imp, forall_eq]
      exact ⟨⟨by simp, rfl, rfl⟩, ⟨by simp, rfl, rfl⟩, ⟨by simp, rfl, rfl⟩⟩
    · exact fun _ h => TermSource.noConfusion h
    · exact fun _ h => TermSource.noConfusion h
  exact ⟨(scoringQueryWandSelective_eq DocSort.stable 1 hterms).2, by decide +kernel⟩

end Snii.Query.ScoringQuery
