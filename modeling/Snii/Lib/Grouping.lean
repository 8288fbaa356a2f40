import Mathlib.Data.List.Dedup
import Mathlib.Data.List.Induction
import Mathlib.Data.List.Sort
import Mathlib.Order.Basic

/-!
# Grouping keyed values

A group list pairs keys with the values seen under them.  `ungroup` lays its
values out again, and `catGroups` appends two group lists, folding a boundary
key that ends the first and begins the second into one group; appending never
changes what `ungroup` returns.  Group lists with strictly ascending keys and no
empty group are determined by the values under each key
(`eq_group_of_valuesOf`), so the grouping of a sequence can be recognised by
these two facts however it was computed.
-/

namespace Snii.Lib.Grouping

variable {κ β : Type*} [LinearOrder κ]

/-- The values under a key, in sequence order. -/
def valuesOf (d : κ) (l : List (κ × β)) : List β := (l.filter fun e => e.1 = d).map Prod.snd

/-- The keyed values of a group list, group by group. -/
def ungroup (g : List (κ × List β)) : List (κ × β) :=
  g.flatMap fun e => e.2.map fun v => (e.1, v)

/-- The distinct keys of a sequence in ascending order. -/
def keysOf (l : List (κ × β)) : List κ := (l.map Prod.fst).dedup.insertionSort (· ≤ ·)

/-- The reference grouping: each key once, ascending, with its values in order. -/
def group (l : List (κ × β)) : List (κ × List β) :=
  (keysOf l).map fun d => (d, valuesOf d l)

/-- Appends two group lists, folding a shared boundary key. -/
def catGroups (g h : List (κ × List β)) : List (κ × List β) :=
  match g.getLast?, h with
  | some last, first :: rest =>
      if last.1 = first.1 then g.dropLast ++ (last.1, last.2 ++ first.2) :: rest else g ++ h
  | _, _ => g ++ h

/-- Strictly ascending keys and no empty group. -/
structure IsGrouping (g : List (κ × List β)) : Prop where
  ascending : g.Pairwise fun a b => a.1 < b.1
  nonempty : ∀ e ∈ g, e.2 ≠ []

/-! ## Values under a key -/

theorem valuesOf_append (d : κ) (l m : List (κ × β)) :
    valuesOf d (l ++ m) = valuesOf d l ++ valuesOf d m := by
  simp [valuesOf]

theorem valuesOf_eq_nil {d : κ} {l : List (κ × β)} :
    valuesOf d l = [] ↔ d ∉ l.map Prod.fst := by
  simp only [valuesOf, List.map_eq_nil_iff, List.filter_eq_nil_iff, decide_eq_true_eq,
    List.mem_map, not_exists, not_and]

omit [LinearOrder κ] in
theorem ungroup_append (g h : List (κ × List β)) :
    ungroup (g ++ h) = ungroup g ++ ungroup h := by
  simp [ungroup]

omit [LinearOrder κ] in
theorem ungroup_cons (e : κ × List β) (g : List (κ × List β)) :
    ungroup (e :: g) = e.2.map (fun v => (e.1, v)) ++ ungroup g := rfl

theorem valuesOf_map_key (d k : κ) (vs : List β) :
    valuesOf d (vs.map fun v => (k, v)) = if k = d then vs else [] := by
  by_cases h : k = d
  · simp [valuesOf, List.filter_map, Function.comp_def, h]
  · simp [valuesOf, List.filter_map, Function.comp_def, h]

theorem valuesOf_map {γ : Type*} (d : κ) (f : β → γ) (l : List (κ × β)) :
    valuesOf d (l.map fun e => (e.1, f e.2)) = (valuesOf d l).map f := by
  simp [valuesOf, List.filter_map, Function.comp_def]

/-- The values under a key are those of its groups, group by group. -/
theorem valuesOf_ungroup (d : κ) (g : List (κ × List β)) :
    valuesOf d (ungroup g) = (valuesOf d g).flatten := by
  induction g with
  | nil => rfl
  | cons e g ih =>
      rw [ungroup_cons, valuesOf_append, valuesOf_map_key, ih]
      by_cases h : e.1 = d
      · simp [valuesOf, h]
      · simp [valuesOf, h]

/-- In an ascending group list a key's values are its one group. -/
theorem valuesOf_ungroup_of_mem {g : List (κ × List β)}
    (hg : g.Pairwise fun a b => a.1 < b.1) {e : κ × List β} (he : e ∈ g) :
    valuesOf e.1 (ungroup g) = e.2 := by
  induction g with
  | nil => simp at he
  | cons f g ih =>
      obtain ⟨hf, hg⟩ := List.pairwise_cons.mp hg
      rw [ungroup_cons, valuesOf_append, valuesOf_map_key]
      rcases List.mem_cons.mp he with rfl | he
      · have hnil : valuesOf e.1 (ungroup g) = [] := by
          rw [valuesOf_eq_nil]
          intro hmem
          obtain ⟨x, hx, hxe⟩ := List.mem_map.mp hmem
          obtain ⟨f, hfm, hxf⟩ := List.mem_flatMap.mp hx
          obtain ⟨v, _, rfl⟩ := List.mem_map.mp hxf
          exact absurd (hf f hfm) (by rw [← hxe]; exact lt_irrefl _)
        rw [if_pos rfl, hnil, List.append_nil]
      · rw [if_neg (hf e he).ne, List.nil_append]
        exact ih hg he

omit [LinearOrder κ] in
theorem mem_keys_ungroup {g : List (κ × List β)} (hg : ∀ e ∈ g, e.2 ≠ []) {d : κ} :
    d ∈ (ungroup g).map Prod.fst ↔ d ∈ g.map Prod.fst := by
  constructor
  · intro h
    obtain ⟨x, hx, rfl⟩ := List.mem_map.mp h
    obtain ⟨e, he, hxe⟩ := List.mem_flatMap.mp hx
    obtain ⟨v, _, rfl⟩ := List.mem_map.mp hxe
    exact List.mem_map.mpr ⟨e, he, rfl⟩
  · intro h
    obtain ⟨e, he, rfl⟩ := List.mem_map.mp h
    obtain ⟨v, hv⟩ := List.exists_mem_of_ne_nil _ (hg e he)
    exact List.mem_map.mpr ⟨(e.1, v), List.mem_flatMap.mpr ⟨e, he, List.mem_map.mpr ⟨v, hv, rfl⟩⟩, rfl⟩

/-! ## The reference grouping -/

theorem mem_keysOf {l : List (κ × β)} {d : κ} : d ∈ keysOf l ↔ d ∈ l.map Prod.fst := by
  rw [keysOf, List.mem_insertionSort, List.mem_dedup]

theorem keysOf_sortedLT (l : List (κ × β)) : (keysOf l).Pairwise (· < ·) := by
  have hle := List.pairwise_insertionSort (· ≤ ·) (l.map Prod.fst).dedup
  have hnd : (keysOf l).Nodup :=
    (List.perm_insertionSort (· ≤ ·) _).nodup_iff.mpr (List.nodup_dedup _)
  exact (hle.and hnd).imp fun h => lt_of_le_of_ne h.1 h.2

theorem group_isGrouping (l : List (κ × β)) : IsGrouping (group l) where
  ascending := List.pairwise_map.mpr (keysOf_sortedLT l)
  nonempty := by
    intro e he
    obtain ⟨d, hd, rfl⟩ := List.mem_map.mp he
    intro hnil
    exact valuesOf_eq_nil.mp hnil (mem_keysOf.mp hd)

/-- **Recognising the grouping**: the values under each key determine it. -/
theorem eq_group_of_valuesOf {g : List (κ × List β)} {l : List (κ × β)} (hg : IsGrouping g)
    (h : ∀ d, valuesOf d (ungroup g) = valuesOf d l) : g = group l := by
  have hkeys : g.map Prod.fst = keysOf l := by
    refine List.Perm.eq_of_pairwise' (r := (· < ·)) ?_ (keysOf_sortedLT l) ?_
    · exact List.pairwise_map.mpr hg.ascending
    · refine (List.perm_ext_iff_of_nodup ?_ ?_).mpr fun d => ?_
      · exact (List.pairwise_map.mpr (hg.ascending.imp fun h => h.ne))
      · exact (keysOf_sortedLT l).imp fun h => h.ne
      · rw [mem_keysOf, ← mem_keys_ungroup hg.nonempty, ← not_iff_not, ← valuesOf_eq_nil,
          ← valuesOf_eq_nil, h d]
  have hval : g = (g.map Prod.fst).map fun d => (d, valuesOf d l) := by
    rw [List.map_map]
    conv_lhs => rw [← List.map_id g]
    refine List.map_congr_left fun e he => ?_
    have := valuesOf_ungroup_of_mem hg.ascending he
    simp only [Function.comp_apply, id, ← h e.1, this]
  rw [hval, hkeys]
  rfl

theorem valuesOf_ungroup_group (d : κ) (l : List (κ × β)) :
    valuesOf d (ungroup (group l)) = valuesOf d l := by
  by_cases hd : d ∈ keysOf l
  · exact valuesOf_ungroup_of_mem (group_isGrouping l).ascending
      (List.mem_map.mpr ⟨d, hd, rfl⟩ : (d, valuesOf d l) ∈ group l)
  · have h1 : valuesOf d (ungroup (group l)) = [] := by
      rw [valuesOf_eq_nil, mem_keys_ungroup (group_isGrouping l).nonempty]
      simpa [group, Function.comp_def] using hd
    have h2 : valuesOf d l = [] := by
      rw [valuesOf_eq_nil, ← mem_keysOf]
      exact hd
    rw [h1, h2]

theorem filter_key_eq (d : κ) (l : List (κ × β)) :
    l.filter (fun e => e.1 = d) = (valuesOf d l).map fun v => (d, v) := by
  rw [valuesOf, List.map_map]
  conv_lhs => rw [← List.map_id (l.filter fun e => e.1 = d)]
  refine List.map_congr_left fun e he => ?_
  have hkey : e.1 = d := by simpa using (List.mem_filter.mp he).2
  simp [← hkey]

/-- Grouping rearranges the sequence. -/
theorem perm_ungroup_group (l : List (κ × β)) : (ungroup (group l)).Perm l := by
  classical
  refine List.perm_iff_count.mpr fun a => ?_
  have hfilter : (ungroup (group l)).filter (fun e => e.1 = a.1) =
      l.filter fun e => e.1 = a.1 := by
    rw [filter_key_eq, filter_key_eq, valuesOf_ungroup_group]
  have hkeep : ∀ m : List (κ × β), (m.filter fun e => e.1 = a.1).count a = m.count a := fun m =>
    List.count_filter (by simp)
  rw [← hkeep, hfilter, hkeep]

/-! ## Appending group lists -/

theorem catGroups_nil_left (h : List (κ × List β)) : catGroups [] h = h := by
  cases h <;> rfl

theorem catGroups_nil_right (g : List (κ × List β)) : catGroups g [] = g := by
  unfold catGroups
  cases g.getLast? <;> simp

theorem catGroups_concat (g h : List (κ × List β)) (last first : κ × List β) :
    catGroups (g ++ [last]) (first :: h) =
      if last.1 = first.1 then g ++ (last.1, last.2 ++ first.2) :: h
      else g ++ last :: first :: h := by
  unfold catGroups
  simp only [List.getLast?_append, List.getLast?_singleton, Option.some_or]
  split
  · simp
  · simp

theorem length_catGroups_le (g h : List (κ × List β)) :
    (catGroups g h).length ≤ g.length + h.length := by
  rcases List.eq_nil_or_concat g with rfl | ⟨g, last, rfl⟩
  · simp [catGroups_nil_left]
  · rw [List.concat_eq_append]
    cases h with
    | nil => rw [catGroups_nil_right, List.length_nil, Nat.add_zero]
    | cons first h =>
        rw [catGroups_concat]
        split <;>
          · simp only [List.length_append, List.length_cons, List.length_nil]
            omega

theorem ungroup_catGroups (g h : List (κ × List β)) :
    ungroup (catGroups g h) = ungroup g ++ ungroup h := by
  rcases List.eq_nil_or_concat g with rfl | ⟨g, last, rfl⟩
  · rw [catGroups_nil_left]
    rfl
  · cases h with
    | nil => simp [catGroups_nil_right, ungroup]
    | cons first h =>
        rw [List.concat_eq_append, catGroups_concat]
        split
        · rename_i heq
          simp [ungroup, heq]
        · simp [ungroup]

theorem catGroups_nonempty {g h : List (κ × List β)} (hg : ∀ e ∈ g, e.2 ≠ [])
    (hh : ∀ e ∈ h, e.2 ≠ []) : ∀ e ∈ catGroups g h, e.2 ≠ [] := by
  rcases List.eq_nil_or_concat g with rfl | ⟨g, last, rfl⟩
  · rw [catGroups_nil_left]
    exact hh
  · cases h with
    | nil => rw [catGroups_nil_right]; exact hg
    | cons first h =>
        rw [List.concat_eq_append] at hg ⊢
        rw [catGroups_concat]
        split
        · intro e he
          rcases List.mem_append.mp he with he | he
          · exact hg e (by simp [he])
          · rcases List.mem_cons.mp he with rfl | he
            · simp [hg last (by simp)]
            · exact hh e (by simp [he])
        · intro e he
          rcases List.mem_append.mp he with he | he
          · exact hg e (by simp [he])
          · rcases List.mem_cons.mp he with rfl | he
            · exact hg e (by simp)
            · exact hh e he

theorem mem_keys_of_mem_catGroups {g h : List (κ × List β)} {a : κ × List β}
    (ha : a ∈ catGroups g h) : a.1 ∈ g.map Prod.fst ∨ a.1 ∈ h.map Prod.fst := by
  rcases List.eq_nil_or_concat g with rfl | ⟨g, last, rfl⟩
  · rw [catGroups_nil_left] at ha
    exact Or.inr (List.mem_map_of_mem ha)
  · cases h with
    | nil => rw [catGroups_nil_right] at ha; exact Or.inl (List.mem_map_of_mem ha)
    | cons first h =>
        rw [List.concat_eq_append] at ha ⊢
        rw [catGroups_concat] at ha
        split at ha
        · rcases List.mem_append.mp ha with ha | ha
          · exact Or.inl (List.mem_map_of_mem (List.mem_append_left _ ha))
          · rcases List.mem_cons.mp ha with rfl | ha
            · exact Or.inl (List.mem_map.mpr ⟨last, by simp, rfl⟩)
            · exact Or.inr (List.mem_map_of_mem (List.mem_cons_of_mem _ ha))
        · rcases List.mem_append.mp ha with ha | ha
          · exact Or.inl (List.mem_map_of_mem (List.mem_append_left _ ha))
          · rcases List.mem_cons.mp ha with rfl | ha
            · exact Or.inl (List.mem_map_of_mem (by simp))
            · exact Or.inr (List.mem_map_of_mem ha)

/-- Appending loses no key. -/
theorem mem_keys_catGroups {g h : List (κ × List β)} {d : κ} :
    d ∈ (catGroups g h).map Prod.fst ↔ d ∈ g.map Prod.fst ∨ d ∈ h.map Prod.fst := by
  constructor
  · intro hd
    obtain ⟨a, ha, rfl⟩ := List.mem_map.mp hd
    exact mem_keys_of_mem_catGroups ha
  · rcases List.eq_nil_or_concat g with rfl | ⟨g, last, rfl⟩
    · rw [catGroups_nil_left]
      simp
    · cases h with
      | nil => rw [catGroups_nil_right]; simp
      | cons first h =>
          rw [List.concat_eq_append, catGroups_concat]
          split
          · rename_i hkey
            simp only [List.map_append, List.map_cons, List.map_nil, List.mem_append,
              List.mem_cons, List.not_mem_nil, ← hkey]
            tauto
          · simp only [List.map_append, List.map_cons, List.map_nil, List.mem_append,
              List.mem_cons, List.not_mem_nil]
            tauto

/-- Appending keeps the keys strictly ascending exactly when no key of the
first list exceeds one of the second. -/
theorem catGroups_ascending_iff {g h : List (κ × List β)}
    (hg : g.Pairwise fun a b => a.1 < b.1) (hh : h.Pairwise fun a b => a.1 < b.1) :
    ((catGroups g h).Pairwise fun a b => a.1 < b.1) ↔ ∀ a ∈ g, ∀ b ∈ h, a.1 ≤ b.1 := by
  rcases List.eq_nil_or_concat g with rfl | ⟨g, last, rfl⟩
  · rw [catGroups_nil_left]
    simpa using hh
  · cases h with
    | nil => rw [catGroups_nil_right]; simpa using hg
    | cons first h =>
        rw [List.concat_eq_append] at hg ⊢
        obtain ⟨hgg, _, hglast⟩ := List.pairwise_append.mp hg
        obtain ⟨hfirst, hhh⟩ := List.pairwise_cons.mp hh
        have hle : last.1 ≤ first.1 → ∀ a ∈ g ++ [last], ∀ b ∈ first :: h, a.1 ≤ b.1 := by
          intro hlf a ha b hb
          have hal : a.1 ≤ last.1 := by
            rcases List.mem_append.mp ha with ha | ha
            · exact (hglast a ha last (by simp)).le
            · rw [List.mem_singleton.mp ha]
          have hfb : first.1 ≤ b.1 := by
            rcases List.mem_cons.mp hb with rfl | hb
            · exact le_refl _
            · exact (hfirst b hb).le
          exact hal.trans (hlf.trans hfb)
        rw [catGroups_concat]
        split
        · rename_i heq
          constructor
          · intro _
            exact hle heq.le
          · intro _
            refine List.pairwise_append.mpr ⟨hgg, List.pairwise_cons.mpr ⟨?_, hhh⟩, ?_⟩
            · intro b hb
              show last.1 < b.1
              rw [heq]
              exact hfirst b hb
            · intro a ha b hb
              have hal := hglast a ha last (by simp)
              rcases List.mem_cons.mp hb with rfl | hb
              · exact hal
              · exact hal.trans (by rw [heq]; exact hfirst b hb)
        · rename_i hne
          constructor
          · intro hp
            have hlf : last.1 < first.1 :=
              (List.pairwise_cons.mp (List.pairwise_append.mp hp).2.1).1 first (by simp)
            exact hle hlf.le
          · intro hall
            have hlf : last.1 < first.1 :=
              lt_of_le_of_ne (hall last (by simp) first (by simp)) hne
            refine List.pairwise_append.mpr ⟨hgg, List.pairwise_cons.mpr ⟨?_, hh⟩, ?_⟩
            · intro b hb
              rcases List.mem_cons.mp hb with rfl | hb
              · exact hlf
              · exact hlf.trans (hfirst b hb)
            · intro a ha b hb
              have hal := hglast a ha last (by simp)
              rcases List.mem_cons.mp hb with rfl | hb
              · exact hal
              · rcases List.mem_cons.mp hb with rfl | hb
                · exact hal.trans hlf
                · exact hal.trans (hlf.trans (hfirst b hb))

/-- The keys of the appended list: those of both, a shared boundary key once. -/
theorem map_fst_catGroups (g h : List (κ × List β)) :
    (catGroups g h).map Prod.fst = g.map Prod.fst ++ h.map Prod.fst ∨
      (catGroups g h).map Prod.fst = g.map Prod.fst ++ (h.map Prod.fst).tail := by
  rcases List.eq_nil_or_concat g with rfl | ⟨g, last, rfl⟩
  · rw [catGroups_nil_left]
    exact Or.inl rfl
  · cases h with
    | nil => rw [catGroups_nil_right]; exact Or.inl (by simp)
    | cons first h =>
        rw [List.concat_eq_append, catGroups_concat]
        split
        · exact Or.inr (by simp)
        · exact Or.inl (by simp)

/-- The first list's order can be read off the appended list. -/
theorem ascending_of_catGroups {g h : List (κ × List β)}
    (hcat : (catGroups g h).Pairwise fun a b => a.1 < b.1) : g.Pairwise fun a b => a.1 < b.1 := by
  rw [← List.pairwise_map] at hcat ⊢
  rcases map_fst_catGroups g h with heq | heq
  · rw [heq] at hcat
    exact (List.pairwise_append.mp hcat).1
  · rw [heq] at hcat
    exact (List.pairwise_append.mp hcat).1

/-- Group lists appended one after the other. -/
def catAll (gs : List (List (κ × List β))) : List (κ × List β) := gs.foldl catGroups []

theorem catAll_concat (gs : List (List (κ × List β))) (h : List (κ × List β)) :
    catAll (gs ++ [h]) = catGroups (catAll gs) h := by
  simp [catAll]

theorem ungroup_catAll (gs : List (List (κ × List β))) :
    ungroup (catAll gs) = gs.flatMap ungroup := by
  induction gs using List.reverseRecOn with
  | nil => rfl
  | append_singleton gs h ih =>
      rw [catAll_concat, ungroup_catGroups, ih, List.flatMap_append, List.flatMap_singleton]

theorem catAll_nonempty {gs : List (List (κ × List β))} (h : ∀ g ∈ gs, ∀ e ∈ g, e.2 ≠ []) :
    ∀ e ∈ catAll gs, e.2 ≠ [] := by
  induction gs using List.reverseRecOn with
  | nil => simp [catAll]
  | append_singleton gs g ih =>
      rw [catAll_concat]
      exact catGroups_nonempty (ih fun g' hg' => h g' (by simp [hg'])) (h g (by simp))

theorem mem_keys_catAll {gs : List (List (κ × List β))} (h : ∀ g ∈ gs, ∀ e ∈ g, e.2 ≠ []) {d : κ} :
    d ∈ (catAll gs).map Prod.fst ↔ ∃ g ∈ gs, d ∈ g.map Prod.fst := by
  rw [← mem_keys_ungroup (catAll_nonempty h), ungroup_catAll, List.map_flatMap, List.mem_flatMap]
  constructor
  · rintro ⟨g, hg, hd⟩
    exact ⟨g, hg, (mem_keys_ungroup (h g hg)).mp hd⟩
  · rintro ⟨g, hg, hd⟩
    exact ⟨g, hg, (mem_keys_ungroup (h g hg)).mpr hd⟩

/-- Groupings appended one after the other ascend exactly when no key of an
earlier one exceeds a key of a later one. -/
theorem catAll_ascending_iff {gs : List (List (κ × List β))} (h : ∀ g ∈ gs, IsGrouping g) :
    ((catAll gs).Pairwise fun a b => a.1 < b.1) ↔
      gs.Pairwise fun g g' => ∀ a ∈ g, ∀ b ∈ g', a.1 ≤ b.1 := by
  induction gs using List.reverseRecOn with
  | nil => simp [catAll]
  | append_singleton gs g ih =>
      have hgs : ∀ g' ∈ gs, IsGrouping g' := fun g' hg' => h g' (by simp [hg'])
      have hne : ∀ g' ∈ gs, ∀ e ∈ g', e.2 ≠ [] := fun g' hg' => (hgs g' hg').nonempty
      have hg := h g (by simp)
      have hkeys : (∀ a ∈ catAll gs, ∀ b ∈ g, a.1 ≤ b.1) ↔
          ∀ g' ∈ gs, ∀ a ∈ g', ∀ b ∈ g, a.1 ≤ b.1 := by
        constructor
        · intro hall g' hg' a ha b hb
          have hmem : a.1 ∈ (catAll gs).map Prod.fst :=
            (mem_keys_catAll hne).mpr ⟨g', hg', List.mem_map_of_mem ha⟩
          obtain ⟨e, he, heq⟩ := List.mem_map.mp hmem
          rw [← heq]
          exact hall e he b hb
        · intro hall a ha b hb
          obtain ⟨g', hg', hd⟩ := (mem_keys_catAll hne).mp (List.mem_map_of_mem ha)
          obtain ⟨e, he, heq⟩ := List.mem_map.mp hd
          rw [← heq]
          exact hall g' hg' e he b hb
      rw [catAll_concat, List.pairwise_append]
      constructor
      · intro hcat
        have hasc := ascending_of_catGroups hcat
        have hbound := hkeys.mp ((catGroups_ascending_iff hasc hg.ascending).mp hcat)
        refine ⟨(ih hgs).mp hasc, List.pairwise_singleton _ _, fun g' hg' x hx => ?_⟩
        rw [List.mem_singleton.mp hx]
        exact hbound g' hg'
      · rintro ⟨hpair, _, hbound⟩
        refine (catGroups_ascending_iff ((ih hgs).mpr hpair) hg.ascending).mpr (hkeys.mpr ?_)
        exact fun g' hg' => hbound g' hg' g (by simp)

/-! ## Sorting by key -/

/-- Insertion by key keeps the values under every key in order. -/
theorem valuesOf_insertionSort (d : κ) (g : List (κ × List β)) :
    valuesOf d (ungroup (g.insertionSort fun a b => a.1 ≤ b.1)) = valuesOf d (ungroup g) := by
  induction g with
  | nil => rfl
  | cons e g ih =>
      have hins : ∀ l : List (κ × List β),
          valuesOf d (ungroup (l.orderedInsert (fun a b => a.1 ≤ b.1) e)) =
            valuesOf d (ungroup (e :: l)) := by
        intro l
        induction l with
        | nil => rfl
        | cons f l ihl =>
            rw [List.orderedInsert_cons]
            split
            · rfl
            · rename_i hlt
              -- the inserted group moves past a group with another key
              have hne : ¬ (e.1 = d ∧ f.1 = d) := by
                rintro ⟨rfl, h⟩
                exact hlt h.ge
              simp only [ungroup_cons, valuesOf_append, valuesOf_map_key] at ihl ⊢
              rw [ihl]
              by_cases he : e.1 = d
              · have hf : ¬ f.1 = d := fun hf => hne ⟨he, hf⟩
                simp [he, hf]
              · simp [he]
      rw [List.insertionSort_cons, hins, ungroup_cons, ungroup_cons, valuesOf_append,
        valuesOf_append, ih]

end Snii.Lib.Grouping
