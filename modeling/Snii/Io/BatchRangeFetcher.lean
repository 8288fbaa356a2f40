import Mathlib.Data.List.Sort
import Snii.Io.FileReader
import Snii.Lib.Agreement
import Snii.Lib.Aligned

/-!
# Batched range reads

`batch_range_fetcher.cpp`: the ranges a plan asks for are swept in offset order and
merged into physical reads, and each request keeps its place in the read that holds
it.  Whatever was merged, a request gets its own bytes.
-/

namespace Snii.Io.BatchRangeFetcher

open Snii.Lib.ByteReader Snii.Lib.Agreement Snii.Common Snii.Io.FileReader

structure Range where
  offset : Nat
  len : Nat
deriving DecidableEq

def Range.stop (r : Range) : Nat := r.offset + r.len

/-- Where a request's bytes are: the physical read, and the offset inside it. -/
structure Place where
  physIdx : Nat
  subOffset : Nat

/-- One step of the sweep: the request opens a segment or widens the last one. -/
def placeRange (gap : Nat) (segs : List Range) (r : Range) : Result (List Range × Place) :=
  if r.len > 2 ^ 64 - 1 - r.offset then
    .error (.corruption "batch_range_fetcher: range end overflow")
  else
    match segs.getLast? with
    | none => .ok ([r], ⟨0, 0⟩)
    | some cur =>
        if r.offset > cur.stop ∧ r.offset - cur.stop > gap then
          .ok (segs ++ [r], ⟨segs.length, 0⟩)
        else
          .ok (segs.dropLast ++ [⟨cur.offset, max cur.stop r.stop - cur.offset⟩],
            ⟨segs.length - 1, r.offset - cur.offset⟩)

/-- The sweep over the requests in offset order, each with its handle. -/
def sweep (gap : Nat) : List Range → List (Nat × Place) → List (Nat × Range) →
    Result (List Range × List (Nat × Place))
  | segs, places, [] => .ok (segs, places)
  | segs, places, (h, r) :: rest => do
      let (segs, place) ← placeRange gap segs r
      sweep gap segs (places ++ [(h, place)]) rest

/-- The handles with their requests, by offset. -/
def inOrder (reqs : List Range) : List (Nat × Range) :=
  reqs.zipIdx.map (fun x => (x.2, x.1)) |>.mergeSort fun a b => a.2.offset ≤ b.2.offset

structure Fetched where
  reqs : List Range
  places : List (Nat × Place)
  phys : List Bytes

def fetch (file : Bytes) (gap : Nat) (reqs : List Range) : Result Fetched := do
  let (segs, places) ← sweep gap [] [] (inOrder reqs)
  let phys ← segs.mapM fun seg => readAt file seg.offset seg.len
  pure { reqs := reqs, places := places, phys := phys }

/-- The bytes of a handle. -/
def Fetched.get (f : Fetched) (h : Nat) : Result Bytes :=
  match f.reqs[h]?, f.places.lookup h with
  | some r, some place =>
      match f.phys[place.physIdx]? with
      | some buf => subslice buf place.subOffset r.len
      | none => .error .outOfBounds
  | _, _ => .error .outOfBounds

/-! ## The sweep -/

/-- A segment that covers a request, at the request's place. -/
def Covers (segs : List Range) (r : Range) (place : Place) : Prop :=
  ∃ seg, segs[place.physIdx]? = some seg ∧ seg.offset + place.subOffset = r.offset ∧
    r.stop ≤ seg.stop

variable {gap : Nat} {segs segs' : List Range} {r : Range} {place : Place}

/-- Segments widened at the end: what was covered still is. -/
theorem Covers.widen {cur : Range} {stop : Nat} (hlast : segs.getLast? = some cur)
    (hstop : cur.stop ≤ stop) (h : Covers segs r place) :
    Covers (segs.dropLast ++ [⟨cur.offset, stop - cur.offset⟩]) r place := by
  obtain ⟨seg, hseg, hoff, hle⟩ := h
  obtain ⟨init, rfl⟩ := List.getLast?_eq_some_iff.mp hlast
  rw [List.dropLast_concat]
  have hbound := (List.getElem?_eq_some_iff.mp hseg).1
  rw [List.length_append, List.length_singleton] at hbound
  by_cases hin : place.physIdx < init.length
  · rw [List.getElem?_append_left hin] at hseg
    exact ⟨seg, by rw [List.getElem?_append_left hin, hseg], hoff, hle⟩
  · have hidx : place.physIdx = init.length := by omega
    rw [hidx, List.getElem?_concat_length] at hseg
    cases hseg
    refine ⟨⟨cur.offset, stop - cur.offset⟩, by rw [hidx, List.getElem?_concat_length], hoff, ?_⟩
    show r.stop ≤ cur.offset + (stop - cur.offset)
    omega

/-- **A step** places its request and keeps what was placed.  The segments start at
requests and end at requests. -/
theorem placeRange_covers (hfirst : ∀ cur, segs.getLast? = some cur → cur.offset ≤ r.offset)
    (h : placeRange gap segs r = .ok (segs', place)) :
    Covers segs' r place ∧ (∀ r' place', Covers segs r' place' → Covers segs' r' place') ∧
      (∀ cur, segs'.getLast? = some cur → cur.offset ≤ r.offset) ∧
      ∀ n, (∀ seg ∈ segs, seg.stop ≤ n) → r.stop ≤ n → ∀ seg ∈ segs', seg.stop ≤ n := by
  unfold placeRange at h
  by_cases hbig : r.len > 2 ^ 64 - 1 - r.offset
  · rw [if_pos hbig] at h
    cases h
  · rw [if_neg hbig] at h
    cases hlast : segs.getLast? with
    | none =>
        rw [hlast] at h
        cases h
        have hnil : segs = [] := List.getLast?_eq_none_iff.mp hlast
        subst hnil
        refine ⟨⟨r, rfl, rfl, Nat.le_refl _⟩, ?_, ?_, ?_⟩
        · rintro r' place' ⟨seg, hseg, _⟩
          cases hseg
        · intro cur hcur
          cases hcur
          exact Nat.le_refl _
        · intro n _ hr seg hseg
          rw [List.mem_singleton.mp hseg]
          exact hr
    | some cur =>
        have hcur := hfirst cur hlast
        rw [hlast] at h
        by_cases hgap : r.offset > cur.stop ∧ r.offset - cur.stop > gap
        · simp only [hgap, and_self, if_true] at h
          cases h
          refine ⟨⟨r, List.getElem?_concat_length, rfl, Nat.le_refl _⟩, ?_, ?_, ?_⟩
          · rintro r' place' ⟨seg, hseg, hrest⟩
            have hbound := (List.getElem?_eq_some_iff.mp hseg).1
            exact ⟨seg, by rw [List.getElem?_append_left hbound, hseg], hrest⟩
          · intro last hlast'
            rw [List.getLast?_concat] at hlast'
            cases hlast'
            exact Nat.le_refl _
          · intro n hn hr seg hseg
            rcases List.mem_append.mp hseg with hseg | hseg
            · exact hn seg hseg
            · rw [List.mem_singleton.mp hseg]
              exact hr
        · simp only [hgap, if_false] at h
          cases h
          refine ⟨?_, fun r' place' hc => hc.widen hlast (Nat.le_max_left _ _), ?_, ?_⟩
          · refine ⟨⟨cur.offset, max cur.stop r.stop - cur.offset⟩, ?_, ?_, ?_⟩
            · rw [← List.length_dropLast, List.getElem?_concat_length]
            · show cur.offset + (r.offset - cur.offset) = r.offset
              omega
            · show r.stop ≤ cur.offset + (max cur.stop r.stop - cur.offset)
              omega
          · intro last hlast'
            rw [List.getLast?_concat] at hlast'
            cases hlast'
            exact hcur
          · intro n hn hr seg hseg
            rcases List.mem_append.mp hseg with hseg | hseg
            · exact hn seg (List.dropLast_subset _ hseg)
            · have hstop := hn cur (List.mem_of_getLast? hlast)
              rw [List.mem_singleton.mp hseg]
              show cur.offset + (max cur.stop r.stop - cur.offset) ≤ n
              have : cur.offset ≤ cur.stop := Nat.le_add_right _ _
              omega

/-- The places found so far: each covers the request of its handle. -/
def Placed (reqs : List Range) (segs : List Range) (places : List (Nat × Place)) : Prop :=
  ∀ x ∈ places, ∃ r, reqs[x.1]? = some r ∧ Covers segs r x.2

/-- **The sweep** over requests in offset order places every one of them. -/
theorem sweep_placed {reqs : List Range} {places places' : List (Nat × Place)}
    {todo : List (Nat × Range)} (hsorted : todo.Pairwise fun a b => a.2.offset ≤ b.2.offset)
    (hreqs : ∀ x ∈ todo, reqs[x.1]? = some x.2) (hplaced : Placed reqs segs places)
    (hfirst : ∀ cur, segs.getLast? = some cur → ∀ x ∈ todo, cur.offset ≤ x.2.offset)
    (h : sweep gap segs places todo = .ok (segs', places')) :
    Placed reqs segs' places' ∧ places'.map Prod.fst = places.map Prod.fst ++ todo.map Prod.fst ∧
      ∀ n, (∀ seg ∈ segs, seg.stop ≤ n) → (∀ x ∈ todo, x.2.stop ≤ n) →
        ∀ seg ∈ segs', seg.stop ≤ n := by
  induction todo generalizing segs places with
  | nil =>
      cases h
      exact ⟨hplaced, by simp, fun n hn _ => hn⟩
  | cons x todo ih =>
      unfold sweep at h
      obtain ⟨⟨segs1, place⟩, hstep, h1⟩ := bind_eq_ok h
      obtain ⟨hcovers, hkeep, hlast, hstop⟩ := placeRange_covers
        (fun cur hcur => hfirst cur hcur x List.mem_cons_self) hstep
      have hsorted' := List.pairwise_cons.mp hsorted
      have hplaced1 : Placed reqs segs1 (places ++ [(x.1, place)]) := by
        intro y hy
        rcases List.mem_append.mp hy with hy | hy
        · obtain ⟨r, hr, hc⟩ := hplaced y hy
          exact ⟨r, hr, hkeep r y.2 hc⟩
        · rw [List.mem_singleton.mp hy]
          exact ⟨x.2, hreqs x List.mem_cons_self, hcovers⟩
      obtain ⟨hplaced', hkeys, hstop'⟩ := ih hsorted'.2
        (fun y hy => hreqs y (List.mem_cons_of_mem _ hy)) hplaced1
        (fun cur hcur y hy => Nat.le_trans (hlast cur hcur) (hsorted'.1 y hy)) h1
      refine ⟨hplaced', by rw [hkeys]; simp, fun n hn hall => hstop' n ?_ ?_⟩
      · exact hstop n hn (hall x List.mem_cons_self)
      · exact fun y hy => hall y (List.mem_cons_of_mem _ hy)

theorem sweep_ok {places : List (Nat × Place)} {todo : List (Nat × Range)}
    (h : ∀ x ∈ todo, x.2.stop < 2 ^ 64) :
    ∃ out, sweep gap segs places todo = .ok out := by
  induction todo generalizing segs places with
  | nil => exact ⟨_, rfl⟩
  | cons x todo ih =>
      have hx : ¬ x.2.len > 2 ^ 64 - 1 - x.2.offset := by
        have : x.2.offset + x.2.len < 2 ^ 64 := h x List.mem_cons_self
        omega
      have hstep : ∃ out, placeRange gap segs x.2 = .ok out := by
        unfold placeRange
        rw [if_neg hx]
        cases segs.getLast? with
        | none => exact ⟨_, rfl⟩
        | some cur =>
            by_cases hgap : x.2.offset > cur.stop ∧ x.2.offset - cur.stop > gap
            · simp only [hgap, and_self, if_true]
              exact ⟨_, rfl⟩
            · simp only [hgap, if_false]
              exact ⟨_, rfl⟩
      obtain ⟨⟨segs1, place⟩, hstep⟩ := hstep
      unfold sweep
      rw [hstep, ok_bind]
      exact ih fun y hy => h y (List.mem_cons_of_mem _ hy)

theorem mem_inOrder {reqs : List Range} {x : Nat × Range} :
    x ∈ inOrder reqs ↔ reqs[x.1]? = some x.2 := by
  obtain ⟨h, r⟩ := x
  rw [inOrder, List.mem_mergeSort, List.mem_map]
  constructor
  · rintro ⟨⟨r', h'⟩, hmem, heq⟩
    cases heq
    exact List.mem_zipIdx_iff_getElem?.mp hmem
  · intro hr
    exact ⟨(r, h), List.mem_zipIdx_iff_getElem?.mpr hr, rfl⟩

theorem pairwise_inOrder (reqs : List Range) :
    (inOrder reqs).Pairwise fun a b => a.2.offset ≤ b.2.offset := by
  have hsorted := @List.pairwise_mergeSort _ (fun a b : Nat × Range => a.2.offset ≤ b.2.offset)
    (fun a b c hab hbc => by
      simp only [decide_eq_true_eq] at hab hbc ⊢
      omega)
    (fun a b => by
      simp only [Bool.or_eq_true, decide_eq_true_eq]
      omega)
    (reqs.zipIdx.map fun x => (x.2, x.1))
  exact hsorted.imp fun hab => of_decide_eq_true hab

/-! ## Fetching -/

theorem lookup_of_placed {reqs : List Range} {places : List (Nat × Place)}
    (hplaced : Placed reqs segs places) {h : Nat} (hmem : h ∈ places.map Prod.fst)
    (hr : reqs[h]? = some r) : ∃ place, places.lookup h = some place ∧ Covers segs r place := by
  induction places with
  | nil => cases hmem
  | cons x places ih =>
      obtain ⟨k, place⟩ := x
      rw [List.lookup_cons]
      by_cases hk : h = k
      · subst hk
        obtain ⟨r', hr', hc⟩ := hplaced _ List.mem_cons_self
        have hrr : some r = some r' := hr.symm.trans hr'
        cases hrr
        exact ⟨place, by simp, hc⟩
      · have hmem' : h ∈ places.map Prod.fst := by
          rw [List.map_cons] at hmem
          exact (List.mem_cons.mp hmem).resolve_left hk
        rw [beq_false_of_ne hk]
        exact ih (fun y hy => hplaced y (List.mem_cons_of_mem _ hy)) hmem'

/-- A request's place in the physical reads. -/
structure PlacedIn (f : Fetched) (file : Bytes) (k : Nat) (r : Range) (place : Place) (buf : Bytes) :
    Prop where
  found : f.places.lookup k = some place
  read : f.phys[place.physIdx]? = some buf
  inside : place.subOffset + r.len ≤ buf.length
  bytes : (buf.drop place.subOffset).take r.len = (file.drop r.offset).take r.len
  stop : r.stop ≤ file.length

theorem fetch_places {file : Bytes} {reqs : List Range} {f : Fetched}
    (h : fetch file gap reqs = .ok f) {k : Nat} (hr : reqs[k]? = some r) :
    f.reqs = reqs ∧ ∃ place buf, PlacedIn f file k r place buf := by
  unfold fetch at h
  obtain ⟨⟨segs, places⟩, hsweep, h1⟩ := bind_eq_ok h
  obtain ⟨phys, hphys, h2⟩ := bind_eq_ok h1
  cases h2
  obtain ⟨hplaced, hkeys, _⟩ := sweep_placed (pairwise_inOrder reqs)
    (fun x hx => mem_inOrder.mp hx) (fun x hx => (by cases hx)) (fun cur hcur => (by cases hcur))
    hsweep
  have hmem : k ∈ places.map Prod.fst := by
    rw [hkeys, List.map_nil, List.nil_append]
    exact List.mem_map.mpr ⟨(k, r), mem_inOrder.mpr hr, rfl⟩
  obtain ⟨place, hlook, seg, hseg, hoff, hstop⟩ := lookup_of_placed hplaced hmem hr
  have hread := mapM_eq_ok hphys
  obtain ⟨hidx, hseg'⟩ := List.getElem?_eq_some_iff.mp hseg
  have hidx' : place.physIdx < phys.length := by rwa [← hread.length_eq]
  have hbuf := hread.get hidx hidx'
  rw [List.get_eq_getElem, List.get_eq_getElem, hseg'] at hbuf
  obtain ⟨hbuf, hfile⟩ := readAt_eq_ok hbuf
  have hlen : r.offset + r.len ≤ seg.offset + seg.len := hstop
  refine ⟨rfl, place, phys[place.physIdx], hlook, List.getElem?_eq_getElem hidx', ?_, ?_,
    Nat.le_trans hstop hfile⟩
  · rw [hbuf, List.length_take, List.length_drop]
    omega
  · rw [hbuf, List.drop_take, List.drop_drop, hoff, List.take_take, Nat.min_eq_left (by omega)]

/-- A handle gives the requested bytes. -/
theorem get_fetch {file : Bytes} {reqs : List Range} {f : Fetched}
    (h : fetch file gap reqs = .ok f) {k : Nat} (hr : reqs[k]? = some r) :
    f.get k = .ok ((file.drop r.offset).take r.len) ∧ r.stop ≤ file.length := by
  obtain ⟨hreqs, place, buf, hplaced⟩ := fetch_places h hr
  have hinside := hplaced.inside
  refine ⟨?_, hplaced.stop⟩
  rw [Fetched.get]
  simp only [hreqs, hr, hplaced.found, hplaced.read]
  rw [subslice, if_neg (by omega), hplaced.bytes]

/-- Requests inside the file are served. -/
theorem fetch_ok {file : Bytes} {reqs : List Range} (hsize : file.length < 2 ^ 64)
    (hin : ∀ r ∈ reqs, r.stop ≤ file.length) : ∃ f, fetch file gap reqs = .ok f := by
  have hstops : ∀ x ∈ inOrder reqs, x.2.stop ≤ file.length := fun x hx =>
    hin x.2 (List.mem_of_getElem? (mem_inOrder.mp hx))
  obtain ⟨⟨segs, places⟩, hsweep⟩ := @sweep_ok gap [] [] (inOrder reqs)
    fun x hx => Nat.lt_of_le_of_lt (hstops x hx) hsize
  obtain ⟨_, _, hbound⟩ := sweep_placed (pairwise_inOrder reqs)
    (fun x hx => mem_inOrder.mp hx) (fun x hx => (by cases hx)) (fun cur hcur => (by cases hcur))
    hsweep
  have hsegs := hbound file.length (fun seg hseg => (by cases hseg)) hstops
  have hread : segs.mapM (fun seg => readAt file seg.offset seg.len) =
      .ok (segs.map fun seg => (file.drop seg.offset).take seg.len) := by
    refine mapM_ok fun seg hseg => ?_
    have : seg.offset + seg.len ≤ file.length := hsegs seg hseg
    rw [readAt, if_neg (by omega)]
  rw [fetch, hsweep, ok_bind]
  simp only [hread]
  exact ⟨_, rfl⟩

/-- The handles from `h` on give the byte strings, one after the other. -/
def Fetched.GetsFrom (f : Fetched) (h : Nat) (bs : List Bytes) : Prop :=
  ∀ k b, bs[k]? = some b → f.get (h + k) = .ok b

theorem Fetched.GetsFrom.cons {f : Fetched} {h : Nat} {b : Bytes} {bs : List Bytes}
    (hgets : f.GetsFrom h (b :: bs)) : f.get h = .ok b ∧ f.GetsFrom (h + 1) bs := by
  constructor
  · exact hgets 0 b rfl
  · intro k x hx
    have hnext := hgets (k + 1) x (by simpa using hx)
    rwa [show h + 1 + k = h + (k + 1) by omega]

theorem Fetched.GetsFrom.append {f : Fetched} {h : Nat} {as bs : List Bytes}
    (hgets : f.GetsFrom h (as ++ bs)) : f.GetsFrom h as ∧ f.GetsFrom (h + as.length) bs := by
  constructor
  · intro k x hx
    apply hgets k x
    obtain ⟨hk, hx⟩ := List.getElem?_eq_some_iff.mp hx
    rw [List.getElem?_append_left hk, List.getElem?_eq_some_iff]
    exact ⟨hk, hx⟩
  · intro k x hx
    rw [Nat.add_assoc]
    apply hgets (as.length + k) x
    rw [List.getElem?_append_right (by omega), Nat.add_sub_cancel_left]
    exact hx

/-- **A batch of ranges that stand in the file** is served, each range with its bytes. -/
theorem fetch_at {file : Bytes} {reqs : List Range} {bs : List Bytes}
    (hsize : file.length < 2 ^ 64)
    (hat : List.Forall₂ (fun r b => At file r.offset b ∧ r.len = b.length) reqs bs) :
    ∃ f, fetch file gap reqs = .ok f ∧ f.GetsFrom 0 bs := by
  have hin : ∀ r ∈ reqs, r.stop ≤ file.length := by
    intro r hr
    obtain ⟨b, -, hb⟩ := Snii.Lib.Aligned.exists_right_of_mem hat hr
    have hbound := hb.1.bound
    rw [Range.stop, hb.2]
    exact hbound
  obtain ⟨f, hf⟩ := @fetch_ok gap _ _ hsize hin
  refine ⟨f, hf, fun k b hb => ?_⟩
  obtain ⟨hk, rfl⟩ := List.getElem?_eq_some_iff.mp hb
  have hk' : k < reqs.length := by rwa [hat.length_eq]
  have hbytes := hat.get hk' hk
  rw [List.get_eq_getElem, List.get_eq_getElem] at hbytes
  rw [Nat.zero_add, (get_fetch hf (List.getElem?_eq_getElem hk')).1]
  obtain ⟨⟨pre, post, hfile, hpre⟩, hlen⟩ := hbytes
  rw [hfile, ← hpre, List.drop_left, hlen, List.take_left]

/-- The bytes of a range. -/
def Range.bytesIn (file : Bytes) (r : Range) : Bytes := (file.drop r.offset).take r.len

/-- A batch that is served has found every range in the file. -/
theorem fetch_gets {file : Bytes} {reqs : List Range} {f : Fetched}
    (h : fetch file gap reqs = .ok f) :
    f.GetsFrom 0 (reqs.map (Range.bytesIn file)) ∧
      ∀ r ∈ reqs, At file r.offset (r.bytesIn file) ∧ r.len = (r.bytesIn file).length := by
  constructor
  · intro k b hb
    rw [List.getElem?_map, Option.map_eq_some_iff] at hb
    obtain ⟨r, hr, rfl⟩ := hb
    rw [Nat.zero_add]
    exact (get_fetch h hr).1
  · intro r hr
    obtain ⟨k, hk⟩ := List.mem_iff_getElem?.mp hr
    have hstop := (get_fetch h hk).2
    rw [Range.stop] at hstop
    have hslice := At.slice (at_append [] file) (show r.offset + r.len ≤ file.length from hstop)
    rw [List.nil_append, List.length_nil, Nat.zero_add] at hslice
    refine ⟨hslice, ?_⟩
    rw [Range.bytesIn, List.length_take, List.length_drop]
    omega

/-! ## One batch in two files -/

/-- Ranges of two files that hold the same bytes. -/
def SameBytes (file file' : Bytes) (r r' : Range) : Prop :=
  ∃ bytes, (At file r.offset bytes ∧ r.len = bytes.length) ∧
    At file' r'.offset bytes ∧ r'.len = bytes.length

/-- Two batches whose handles give the same. -/
def SameFetched (f f' : Fetched) : Prop := ∀ h, f.get h = f'.get h

theorem sameBytes_empty (file file' : Bytes) : SameBytes file file' ⟨0, 0⟩ ⟨0, 0⟩ :=
  ⟨[], ⟨⟨[], file, rfl, rfl⟩, rfl⟩, ⟨[], file', rfl, rfl⟩, rfl⟩

theorem exists_sameBytes {file file' : Bytes} {reqs reqs' : List Range}
    (h : List.Forall₂ (SameBytes file file') reqs reqs') :
    ∃ bs, List.Forall₂ (fun r b => At file r.offset b ∧ r.len = b.length) reqs bs ∧
      List.Forall₂ (fun r b => At file' r.offset b ∧ r.len = b.length) reqs' bs := by
  induction h with
  | nil => exact ⟨[], .nil, .nil⟩
  | cons hr _ ih =>
      obtain ⟨b, hhere, hthere⟩ := hr
      obtain ⟨bs, hbs, hbs'⟩ := ih
      exact ⟨b :: bs, .cons hhere hbs, .cons hthere hbs'⟩

theorem reqs_fetch {file : Bytes} {reqs : List Range} {f : Fetched}
    (h : fetch file gap reqs = .ok f) : f.reqs = reqs := by
  obtain ⟨_, _, h⟩ := bind_eq_ok h
  obtain ⟨_, _, h⟩ := bind_eq_ok h
  cases h
  rfl

theorem get_beyond {f : Fetched} {h : Nat} (hle : f.reqs.length ≤ h) :
    f.get h = .error .outOfBounds := by
  rw [Fetched.get, List.getElem?_eq_none hle]

/-- **The same bytes at other places**: both batches are served, with the same bytes for
every handle. -/
theorem fetch_same {file file' : Bytes} (hsize : file.length < 2 ^ 64)
    (hsize' : file'.length < 2 ^ 64) {reqs reqs' : List Range}
    (h : List.Forall₂ (SameBytes file file') reqs reqs') (gap : Nat) :
    SameOutcome SameFetched (fetch file gap reqs) (fetch file' gap reqs') := by
  obtain ⟨bs, hbs, hbs'⟩ := exists_sameBytes h
  obtain ⟨f, hf, hgets⟩ := @fetch_at gap file reqs bs hsize hbs
  obtain ⟨f', hf', hgets'⟩ := @fetch_at gap file' reqs' bs hsize' hbs'
  rw [hf, hf']
  apply SameOutcome.ok
  intro k
  by_cases hk : k < bs.length
  · have hget := hgets k _ (List.getElem?_eq_getElem hk)
    have hget' := hgets' k _ (List.getElem?_eq_getElem hk)
    rw [Nat.zero_add] at hget hget'
    rw [hget, hget']
  · have hlen := hbs.length_eq
    have hlen' := hbs'.length_eq
    rw [get_beyond (by rw [reqs_fetch hf]; omega), get_beyond (by rw [reqs_fetch hf']; omega)]

/-- A request that ends beyond the 64-bit numbers stops the sweep. -/
theorem sweep_overflow {places : List (Nat × Place)} {todo : List (Nat × Range)}
    {x : Nat × Range} (hx : x ∈ todo) (hbig : x.2.len > 2 ^ 64 - 1 - x.2.offset) :
    ∃ e, sweep gap segs places todo = .error e := by
  induction todo generalizing segs places with
  | nil => cases hx
  | cons y todo ih =>
      unfold sweep
      rcases List.mem_cons.mp hx with rfl | hx
      · refine ⟨.corruption "batch_range_fetcher: range end overflow", ?_⟩
        rw [placeRange, if_pos hbig]
        rfl
      · cases hstep : placeRange gap segs y.2 with
        | error e => exact ⟨e, rfl⟩
        | ok out => exact ih hx

/-- **Coalesced reads return the requested bytes**, from inside their physical reads,
and a request that ends beyond the 64-bit numbers is refused. -/
theorem fetch_serves (file : Bytes) (gap : Nat) (reqs : List Range)
    (hwidths : ∀ r ∈ reqs, r.offset < 2 ^ 64 ∧ r.len < 2 ^ 64) :
    (∀ f, fetch file gap reqs = .ok f → ∀ k r, reqs[k]? = some r →
      f.get k = .ok ((file.drop r.offset).take r.len) ∧
      ∃ place buf, f.places.lookup k = some place ∧ f.phys[place.physIdx]? = some buf ∧
        place.subOffset + r.len ≤ buf.length) ∧
    ((∃ r ∈ reqs, r.offset + r.len > 2 ^ 64 - 1) → ∃ e, fetch file gap reqs = .error e) := by
  constructor
  · intro f hf k r hr
    obtain ⟨_, place, buf, hplaced⟩ := fetch_places hf hr
    exact ⟨(get_fetch hf hr).1, place, buf, hplaced.found, hplaced.read, hplaced.inside⟩
  · rintro ⟨r, hr, hbig⟩
    obtain ⟨k, hk⟩ := List.mem_iff_getElem?.mp hr
    have hoff := (hwidths r hr).1
    obtain ⟨e, he⟩ := @sweep_overflow gap [] [] _ (k, r) (mem_inOrder.mpr hk)
      (show r.len > 2 ^ 64 - 1 - r.offset by omega)
    refine ⟨e, ?_⟩
    rw [fetch, he]
    rfl

/-- Overlapping, nested, duplicated and empty requests out of order. -/
theorem fetch_serves_nested : ∃ f,
    fetch [10, 11, 12, 13, 14, 15, 16] 1 [⟨4, 3⟩, ⟨1, 2⟩, ⟨1, 2⟩, ⟨2, 0⟩, ⟨0, 7⟩] = .ok f ∧
      f.get 0 = .ok [14, 15, 16] ∧ f.get 1 = .ok [11, 12] ∧ f.get 3 = .ok [] := by
  obtain ⟨f, hf⟩ := @fetch_ok 1 [10, 11, 12, 13, 14, 15, 16]
    [⟨4, 3⟩, ⟨1, 2⟩, ⟨1, 2⟩, ⟨2, 0⟩, ⟨0, 7⟩] (by decide) (by decide)
  have hserves := (fetch_serves [10, 11, 12, 13, 14, 15, 16] 1
    [⟨4, 3⟩, ⟨1, 2⟩, ⟨1, 2⟩, ⟨2, 0⟩, ⟨0, 7⟩] (by decide)).1 f hf
  exact ⟨f, hf, (hserves 0 _ rfl).1, (hserves 1 _ rfl).1, (hserves 3 _ rfl).1⟩

end Snii.Io.BatchRangeFetcher
