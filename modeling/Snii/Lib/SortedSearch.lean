import Mathlib.Order.Defs.LinearOrder
import Mathlib.Order.Basic
import Mathlib.Data.List.Basic
import Mathlib.Data.List.Lex
import Mathlib.Data.List.Pairwise
import Mathlib.Data.List.TakeWhile
import Snii.Lib.Chunks

/-!
# Search in sorted lists

A sorted list cut into segments is searched by the first key of each segment: the
last first key that is not above the target names the only segment that can hold
it.  `bisect` is the binary search for that position, `upperBound` the one of the
standard library.
-/

namespace Snii.Lib.SortedSearch

variable {κ β : Type*} [LinearOrder κ]

/-- Position `r` holds the last key that is not above `t`. -/
structure IsLastLe (xs : List κ) (t : κ) (r : Nat) : Prop where
  le : ∃ x, xs[r]? = some x ∧ x ≤ t
  after : ∀ i x, r < i → xs[i]? = some x → t < x

/-! ## Two searches -/

/-- The loop that keeps `p` true at `lo` and false from `hi` on; `hi - lo` is fuel enough. -/
def bisect (p : Nat → Bool) : Nat → Nat → Nat → Nat
  | 0, lo, _ => lo
  | fuel + 1, lo, hi =>
      if lo + 1 < hi then
        let mid := lo + (hi - lo) / 2
        if p mid then bisect p fuel mid hi else bisect p fuel lo mid
      else lo

theorem bisect_spec {p : Nat → Bool} {fuel lo hi : Nat} (hfuel : hi - lo ≤ fuel) (hlt : lo < hi)
    (hlo : p lo = true) (hhi : p hi = false) :
    p (bisect p fuel lo hi) = true ∧ p (bisect p fuel lo hi + 1) = false ∧
      bisect p fuel lo hi < hi := by
  induction fuel generalizing lo hi with
  | zero => omega
  | succ fuel ih =>
      rw [bisect]
      by_cases hgap : lo + 1 < hi
      · rw [if_pos hgap]
        have hmid : lo < lo + (hi - lo) / 2 ∧ lo + (hi - lo) / 2 < hi := by omega
        by_cases hp : p (lo + (hi - lo) / 2) = true
        · simp only [hp, if_true]
          exact ih (by omega) hmid.2 hp hhi
        · simp only [hp, Bool.false_eq_true, if_false]
          obtain ⟨h1, h2, h3⟩ := ih (by omega) hmid.1 hlo (Bool.eq_false_iff.mpr hp)
          exact ⟨h1, h2, Nat.lt_trans h3 hmid.2⟩
      · rw [if_neg hgap]
        have hhi' : hi = lo + 1 := by omega
        exact ⟨hlo, hhi' ▸ hhi, hlt⟩

/-- The search as a loop without a bound on its rounds, over positions below `n`. -/
inductive BisectRun (p : Nat → Bool) (n : Nat) : Nat → Nat → Nat → Prop
  | done (lo hi : Nat) (h : hi ≤ lo + 1) : BisectRun p n lo hi lo
  | right (lo hi r : Nat) (gap : lo + 1 < hi) (inside : lo + (hi - lo) / 2 < n)
      (hp : p (lo + (hi - lo) / 2) = true) (tail : BisectRun p n (lo + (hi - lo) / 2) hi r) :
      BisectRun p n lo hi r
  | left (lo hi r : Nat) (gap : lo + 1 < hi) (inside : lo + (hi - lo) / 2 < n)
      (hp : p (lo + (hi - lo) / 2) = false) (tail : BisectRun p n lo (lo + (hi - lo) / 2) r) :
      BisectRun p n lo hi r

/-- **The search ends** for any `p`, and looks at positions inside only. -/
theorem bisect_run {p : Nat → Bool} {n fuel lo hi : Nat} (hfuel : hi - lo ≤ fuel) (hhi : hi ≤ n) :
    BisectRun p n lo hi (bisect p fuel lo hi) := by
  induction fuel generalizing lo hi with
  | zero => exact BisectRun.done lo hi (by omega)
  | succ fuel ih =>
      rw [bisect]
      by_cases hgap : lo + 1 < hi
      · rw [if_pos hgap]
        cases hp : p (lo + (hi - lo) / 2) with
        | true =>
            simp only [hp, if_true]
            exact BisectRun.right lo hi _ hgap (by omega) hp (ih (by omega) hhi)
        | false =>
            simp only [hp, Bool.false_eq_true, if_false]
            exact BisectRun.left lo hi _ hgap (by omega) hp (ih (by omega) (by omega))
      · rw [if_neg hgap]
        exact BisectRun.done lo hi (by omega)

theorem BisectRun.lt {p : Nat → Bool} {n lo hi r : Nat} (h : BisectRun p n lo hi r)
    (hlo : lo < n) : r < n := by
  induction h with
  | done lo hi h => exact hlo
  | right lo hi r gap inside hp tail ih => exact ih inside
  | left lo hi r gap inside hp tail ih => exact ih hlo

theorem getElem?_lt {xs : List κ} (h : xs.Pairwise (· < ·)) {i j : Nat} {x y : κ} (hij : i < j)
    (hx : xs[i]? = some x) (hy : xs[j]? = some y) : x < y := by
  obtain ⟨hi, rfl⟩ := List.getElem?_eq_some_iff.mp hx
  obtain ⟨hj, rfl⟩ := List.getElem?_eq_some_iff.mp hy
  exact List.pairwise_iff_getElem.mp h i j hi hj hij

/-- A key that is not above `t`, followed by one that is or by the end, is the last such key. -/
theorem isLastLe_of_next {xs : List κ} (h : xs.Pairwise (· < ·)) {t x : κ} {r : Nat}
    (hx : xs[r]? = some x) (hle : x ≤ t) (hnext : ∀ y, xs[r + 1]? = some y → t < y) :
    IsLastLe xs t r := by
  refine ⟨⟨x, hx, hle⟩, ?_⟩
  intro i y hi hy
  rcases Nat.eq_or_lt_of_le (Nat.succ_le_of_lt hi) with heq | hlt
  · rw [← heq] at hy
    exact hnext y hy
  · have hlen : r + 1 < xs.length :=
      Nat.lt_trans hlt (List.getElem?_eq_some_iff.mp hy).1
    have hget : xs[r + 1]? = some xs[r + 1] := List.getElem?_eq_getElem hlen
    exact (hnext _ hget).trans (getElem?_lt h hlt hget hy)

/-- Is the key at a position not above `t`? -/
def leAt (xs : List κ) (t : κ) (i : Nat) : Bool :=
  match xs[i]? with
  | some x => decide (x ≤ t)
  | none => false

/-- The binary search finds the last key that is not above the target. -/
theorem bisect_isLastLe {xs : List κ} (h : xs.Pairwise (· < ·)) {t x : κ}
    (hhead : xs.head? = some x) (hle : x ≤ t) :
    IsLastLe xs t (bisect (leAt xs t) xs.length 0 xs.length) := by
  have hpos : 0 < xs.length := by
    cases xs with
    | nil => simp at hhead
    | cons a as => simp
  have h0 : leAt xs t 0 = true := by
    rw [leAt, ← List.head?_eq_getElem?, hhead]
    exact decide_eq_true hle
  have hend : leAt xs t xs.length = false := by
    rw [leAt, List.getElem?_eq_none (Nat.le_refl _)]
  obtain ⟨hr, hr1, -⟩ := bisect_spec (Nat.sub_le _ _) hpos h0 hend
  generalize bisect (leAt xs t) xs.length 0 xs.length = r at hr hr1 ⊢
  rw [leAt] at hr hr1
  split at hr
  case h_2 => cases hr
  case h_1 y hy =>
      refine isLastLe_of_next h hy (of_decide_eq_true hr) ?_
      intro z hz
      rw [hz] at hr1
      exact not_le.mp (of_decide_eq_false hr1)

/-- `std::upper_bound`: the number of leading keys that are not above `t`. -/
def upperBound (xs : List κ) (t : κ) : Nat := (xs.takeWhile fun x => decide (¬ t < x)).length

theorem upperBound_isLastLe {xs : List κ} (h : xs.Pairwise (· < ·)) {t x : κ}
    (hhead : xs.head? = some x) (hle : x ≤ t) : IsLastLe xs t (upperBound xs t - 1) := by
  have hsplit : xs.takeWhile (fun x => decide (¬ t < x)) ++
      xs.dropWhile (fun x => decide (¬ t < x)) = xs := List.takeWhile_append_dropWhile
  have hpos : 0 < upperBound xs t := by
    cases xs with
    | nil => simp at hhead
    | cons a as =>
        have hax : a = x := by simpa using hhead
        rw [upperBound, List.takeWhile_cons, if_pos (by simpa [hax] using hle)]
        simp
  have hall : ∀ y ∈ xs.takeWhile (fun x => decide (¬ t < x)), y ≤ t := by
    intro y hy
    have hp := List.mem_takeWhile_imp hy
    exact not_lt.mp (of_decide_eq_true hp)
  have hdrop := List.head?_dropWhile_not (fun x => decide (¬ t < x)) xs
  rw [upperBound] at hpos ⊢
  generalize xs.takeWhile (fun x => decide (¬ t < x)) = small at *
  generalize xs.dropWhile (fun x => decide (¬ t < x)) = large at *
  subst hsplit
  have hlast : small.length - 1 < small.length := by omega
  have hget : (small ++ large)[small.length - 1]? = some small[small.length - 1] := by
    rw [List.getElem?_append_left hlast]
    exact List.getElem?_eq_getElem hlast
  refine isLastLe_of_next h hget (hall _ (List.getElem_mem hlast)) ?_
  intro y hy
  rw [Nat.sub_add_cancel hpos, List.getElem?_append_right (Nat.le_refl _), Nat.sub_self,
    ← List.head?_eq_getElem?] at hy
  rw [hy] at hdrop
  simpa using hdrop

/-! ## Segments -/

variable (key : β → κ)

/-- The first key of each segment. -/
def heads (segs : List (List β)) : List κ := segs.filterMap fun s => s.head?.map key

variable {key} {segs : List (List β)}

omit [LinearOrder κ] in
theorem heads_getElem? (hne : ∀ s ∈ segs, s ≠ []) (i : Nat) :
    (heads key segs)[i]? = segs[i]?.bind fun s => s.head?.map key := by
  induction segs generalizing i with
  | nil => rfl
  | cons s segs ih =>
      have hrest := ih fun x hx => hne x (List.mem_cons_of_mem _ hx)
      cases s with
      | nil => exact absurd rfl (hne [] List.mem_cons_self)
      | cons b bs =>
          cases i with
          | zero => rfl
          | succ i => exact hrest i

theorem heads_pairwise (hs : segs.flatten.Pairwise (key · < key ·)) :
    (heads key segs).Pairwise (· < ·) := by
  rw [List.pairwise_flatten] at hs
  rw [heads, List.pairwise_filterMap]
  refine hs.2.imp ?_
  intro s s' hlt a ha a' ha'
  obtain ⟨b, hb, rfl⟩ := Option.map_eq_some_iff.mp ha
  obtain ⟨b', hb', rfl⟩ := Option.map_eq_some_iff.mp ha'
  exact hlt b (List.mem_of_mem_head? hb) b' (List.mem_of_mem_head? hb')

variable (hne : ∀ s ∈ segs, s ≠ []) (hs : segs.flatten.Pairwise (key · < key ·))

include hne hs

/-- What stands before the segment of the last small first key is below the target. -/
theorem lt_of_mem_take {t : κ} {r : Nat} (h : IsLastLe (heads key segs) t r) {b : β}
    (hb : b ∈ (segs.take r).flatten) : key b < t := by
  obtain ⟨x, hx, hle⟩ := h.le
  rw [heads_getElem? hne, Option.bind_eq_some_iff] at hx
  obtain ⟨s, hsr, hx⟩ := hx
  obtain ⟨c, hc, rfl⟩ := Option.map_eq_some_iff.mp hx
  have hmem : c ∈ (segs.drop r).flatten := by
    refine List.mem_flatten.mpr ⟨s, ?_, List.mem_of_mem_head? hc⟩
    refine List.mem_of_getElem? (?_ : (segs.drop r)[0]? = some s)
    rw [List.getElem?_drop]
    exact hsr
  rw [← List.take_append_drop r segs, List.flatten_append, List.pairwise_append] at hs
  exact (hs.2.2 b hb c hmem).trans_le hle

/-- What stands behind it is above the target. -/
theorem lt_of_mem_drop {t : κ} {r : Nat} (h : IsLastLe (heads key segs) t r) {b : β}
    (hb : b ∈ (segs.drop (r + 1)).flatten) : t < key b := by
  obtain ⟨s, hmem, hbs⟩ := List.mem_flatten.mp hb
  obtain ⟨i, hi⟩ := List.mem_iff_getElem?.mp hmem
  rw [List.getElem?_drop] at hi
  have hseg : s ∈ segs := List.mem_of_getElem? hi
  have hsorted : s.Pairwise (key · < key ·) := (List.pairwise_flatten.mp hs).1 s hseg
  cases s with
  | nil => simp at hbs
  | cons c cs =>
      have hhead : t < key c := by
        refine h.after (r + 1 + i) (key c) (by omega) ?_
        rw [heads_getElem? hne, hi]
        rfl
      rcases List.mem_cons.mp hbs with rfl | hbs
      · exact hhead
      · exact hhead.trans ((List.pairwise_cons.mp hsorted).1 b hbs)

/-- Searching all segments is searching the one the first keys name. -/
theorem find?_flatten_eq {t : κ} {p : β → Bool} (hp : ∀ b, p b = true → key b = t) {r : Nat}
    {seg : List β} (h : IsLastLe (heads key segs) t r) (hseg : segs[r]? = some seg) :
    segs.flatten.find? p = seg.find? p := by
  have hbefore : (segs.take r).flatten.find? p = none := by
    rw [List.find?_eq_none]
    exact fun b hb hpb => absurd (hp b hpb) (ne_of_lt (lt_of_mem_take hne hs h hb))
  have hafter : (segs.drop (r + 1)).flatten.find? p = none := by
    rw [List.find?_eq_none]
    exact fun b hb hpb => absurd (hp b hpb) (ne_of_gt (lt_of_mem_drop hne hs h hb))
  obtain ⟨hr, rfl⟩ := List.getElem?_eq_some_iff.mp hseg
  have hsplit : segs = segs.take r ++ (segs[r] :: segs.drop (r + 1)) := by
    rw [List.getElem_cons_drop, List.take_append_drop]
  conv_lhs => rw [hsplit]
  rw [List.flatten_append, List.flatten_cons, List.find?_append, hbefore, Option.none_or,
    List.find?_append, hafter, Option.or_none]

/-- A target below the first key is below all. -/
theorem lt_of_lt_heads {t : κ} (h : ∀ x, (heads key segs).head? = some x → t < x) {b : β}
    (hb : b ∈ segs.flatten) : t < key b := by
  cases segs with
  | nil => simp at hb
  | cons s rest =>
      cases s with
      | nil => exact absurd rfl (hne [] List.mem_cons_self)
      | cons c cs =>
          have hc : t < key c := h (key c) rfl
          have hb' : b = c ∨ b ∈ cs ++ rest.flatten := List.mem_cons.mp hb
          rcases hb' with rfl | hb'
          · exact hc
          · exact hc.trans ((List.pairwise_cons.mp hs).1 b hb')

theorem find?_flatten_eq_none {t : κ} {p : β → Bool} (hp : ∀ b, p b = true → key b = t)
    (h : ∀ x, (heads key segs).head? = some x → t < x) : segs.flatten.find? p = none := by
  rw [List.find?_eq_none]
  intro b hb hpb
  exact absurd (hp b hpb) (ne_of_gt (lt_of_lt_heads hne hs h hb))

omit hne hs

/-! ## Prefixes -/

section Prefixes

variable {α : Type*} [LinearOrder α] {p t t' : List α}

theorem le_of_isPrefix (h : p <+: t) : p ≤ t := by
  induction p generalizing t with
  | nil => exact not_lt.mp (List.not_lt_nil t)
  | cons a p ih =>
      obtain ⟨rest, rfl⟩ := h
      have := ih ⟨rest, rfl⟩
      rw [← not_lt, List.cons_append, List.cons_lt_cons_iff]
      rw [← not_lt] at this
      simpa using this

/-- Keys with a common prefix are consecutive: behind one that is above the prefix
and lacks it there is none. -/
theorem not_isPrefix_of_lt (hle : p ≤ t) (hp : ¬ p <+: t) (hlt : t < t') : ¬ p <+: t' := by
  induction p generalizing t t' with
  | nil => exact absurd List.nil_prefix hp
  | cons a p ih =>
      rintro ⟨rest, rfl⟩
      cases t with
      | nil => exact absurd (List.nil_lt_cons a p) (not_lt.mpr hle)
      | cons b t =>
          rw [List.cons_append, List.cons_lt_cons_iff] at hlt
          rw [← not_lt, List.cons_lt_cons_iff] at hle
          rw [List.cons_prefix_cons] at hp
          push Not at hle hp
          rcases hlt with hlt | ⟨rfl, hlt⟩
          · exact absurd hlt (not_lt.mpr hle.1)
          · exact ih (hle.2 rfl) (hp rfl) hlt ⟨rest, rfl⟩

end Prefixes

/-! ## Two levels -/

section TwoLevels

/-- Groups of one size, of which the last may be shorter, each with its last element. -/
inductive Grouped {α : Type*} (g : Nat) : List (List α) → List α → Prop
  | nil : Grouped g [] []
  | single {b : List α} {l : α} (last : b.getLast? = some l) (size : b.length ≤ g) :
      Grouped g [b] [l]
  | cons {b : List α} {l : α} {bs : List (List α)} {ls : List α} (last : b.getLast? = some l)
      (size : b.length = g) (rest : Grouped g bs ls) : Grouped g (b :: bs) (l :: ls)

variable {α : Type*} {p : α → Bool} {g : Nat} {groups : List (List α)} {lasts : List α}

theorem findIdx?_eq_none_of_last {b : List α} {l : α} (hlast : b.getLast? = some l)
    (hmono : b.Pairwise fun x y => p x = true → p y = true) (hl : p l = false) :
    b.findIdx? p = none := by
  rw [List.findIdx?_eq_none_iff]
  intro x hx
  obtain ⟨init, rfl⟩ := List.getLast?_eq_some_iff.mp hlast
  rcases List.mem_append.mp hx with hx | hx
  · by_contra hpx
    have hpl := (List.pairwise_append.mp hmono).2.2 x hx l List.mem_cons_self
      (Bool.not_eq_false _ ▸ hpx)
    rw [hl] at hpl
    cases hpl
  · rw [List.mem_singleton.mp hx]
    exact hl

theorem findIdx?_take_of_last {b more : List α} {l : α} (hlast : b.getLast? = some l)
    (hl : p l = true) (hle : b.length ≤ g) :
    ((b ++ more).take g).findIdx? p = (b ++ more).findIdx? p := by
  have hsome : (b.findIdx? p).isSome = true := by
    rw [List.findIdx?_isSome, List.any_eq_true]
    exact ⟨l, List.mem_of_getLast? hlast, hl⟩
  rw [List.take_append, List.take_of_length_le hle, List.findIdx?_append, List.findIdx?_append,
    Option.or_of_isSome hsome, Option.or_of_isSome hsome]

/-- A scan of the first `g` elements finds the first element of all exactly when there is
none, or the scan reaches one. -/
theorem findIdx?_take_iff {xs : List α} {l : α} (hlast : xs.getLast? = some l)
    (hmono : xs.Pairwise fun x y => p x = true → p y = true) :
    (xs.take g).findIdx? p = xs.findIdx? p ↔
      p l = false ∨ ∃ b, (xs.take g).getLast? = some b ∧ p b = true := by
  constructor
  · intro heq
    cases hl : p l with
    | false => exact .inl rfl
    | true =>
        have hsome : (xs.findIdx? p).isSome = true := by
          rw [List.findIdx?_isSome, List.any_eq_true]
          exact ⟨l, List.mem_of_getLast? hlast, hl⟩
        rw [← heq] at hsome
        cases hb : (xs.take g).getLast? with
        | none =>
            rw [List.getLast?_eq_none_iff.mp hb] at hsome
            cases hsome
        | some b =>
            refine .inr ⟨b, rfl, ?_⟩
            by_contra hpb
            rw [findIdx?_eq_none_of_last hb (hmono.sublist (List.take_sublist g xs))
              (Bool.not_eq_true _ ▸ hpb)] at hsome
            cases hsome
  · rintro (hl | ⟨b, hb, hpb⟩)
    · have hnone := findIdx?_eq_none_of_last hlast hmono hl
      rw [hnone, List.findIdx?_eq_none_iff]
      intro x hx
      exact List.findIdx?_eq_none_iff.mp hnone x (List.mem_of_mem_take hx)
    · have hscan := @findIdx?_take_of_last _ p g (xs.take g) (xs.drop g) b hb hpb
        (List.length_take_le g xs)
      rwa [List.take_append_drop] at hscan

/-- **The first element with a monotone property** is found by the groups' last elements
and a search in one group. -/
theorem Grouped.findIdx? (h : Grouped g groups lasts)
    (hmono : groups.flatten.Pairwise fun x y => p x = true → p y = true) :
    (((groups.flatten.drop ((lasts.takeWhile fun l => !p l).length * g)).take g).findIdx? p).map
        ((lasts.takeWhile fun l => !p l).length * g + ·) = groups.flatten.findIdx? p := by
  induction h with
  | nil => simp
  | @single b l last size =>
      rw [List.flatten_singleton] at hmono ⊢
      cases hl : p l with
      | true => simp [hl, List.take_of_length_le size]
      | false => simp [hl, findIdx?_eq_none_of_last last hmono hl, List.drop_eq_nil_of_le size]
  | @cons b l bs ls last size rest ih =>
      rw [List.flatten_cons] at hmono ⊢
      obtain ⟨hb, hbs, _⟩ := List.pairwise_append.mp hmono
      cases hl : p l with
      | true =>
          rw [List.takeWhile_cons_of_neg (by simp [hl])]
          simp only [List.length_nil, Nat.zero_mul, List.drop_zero, Nat.zero_add, Option.map_id']
          exact findIdx?_take_of_last last hl size.le
      | false =>
          rw [List.takeWhile_cons_of_pos (by simp [hl]), List.length_cons, Nat.succ_mul,
            List.findIdx?_append, findIdx?_eq_none_of_last last hb hl, Option.none_or, ← ih hbs,
            Nat.add_comm _ g, ← List.drop_drop, ← size, List.drop_left, Option.map_map]
          congr 1
          funext i
          simp only [Function.comp_apply]
          omega

theorem grouped_chunks {β : Type} (hg : 0 < g) (xs : List β) :
    Grouped g (Chunks.chunks g xs) ((Chunks.chunks g xs).filterMap List.getLast?) := by
  induction xs using Chunks.chunks_induction hg with
  | nil =>
      rw [Chunks.chunks_nil hg]
      exact .nil
  | step xs hne ih =>
      have hpos := List.length_pos_iff.mpr hne
      have hfirst : xs.take g ≠ [] := by
        rw [← List.length_pos_iff, List.length_take]
        omega
      have hlast := List.getLast?_eq_some_getLast hfirst
      rw [Chunks.chunks_of_ne_nil hg hne, List.filterMap_cons_some hlast]
      by_cases hmore : xs.drop g = []
      · rw [hmore, Chunks.chunks_nil hg]
        exact .single hlast (List.length_take_le _ _)
      · have hlong := List.length_pos_iff.mpr hmore
        rw [List.length_drop] at hlong
        exact .cons hlast (by rw [List.length_take]; omega) ih

end TwoLevels

end Snii.Lib.SortedSearch
