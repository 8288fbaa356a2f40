import Snii.Writer.RunBytes
import Snii.Writer.MergeTerm

/-!
# Merging records nobody vouches for

One term of `MergeRuns` on run files of arbitrary bytes.  The readers never leave their
files, but the merge trusts what a record states: the positions it reserves room for are
those of the header, a boundary document splices as many positions as its freq says, and
nothing compares the freqs of a term with its positions.  `Emission` lists what can become
of a group of records, and on which of them it depends.
-/

namespace Snii.Writer.SpillRunCodec

open Snii.Lib.ByteReader Snii.Common

/-! ## Coalescing slices -/

/-- The same documents with the same freqs. -/
def SameDocs (a b : TermPostings) : Prop := a.docids = b.docids ∧ a.freqs = b.freqs

/-- A record's docids and freqs behind those merged so far, a boundary document folded. -/
def foldSlice (dst : TermPostings) (x : RawRecord) : TermPostings :=
  match x.docids, x.freqs with
  | first :: docids, headFc :: freqs =>
      if dst.docids.getLast? = some first then
        { dst with
          docids := dst.docids ++ docids
          freqs := dst.freqs.dropLast ++
            [(dst.freqs.getLast?.getD 0 + headFc) % 2 ^ 32] ++ freqs }
      else { dst with docids := dst.docids ++ first :: docids
                      freqs := dst.freqs ++ headFc :: freqs }
  | _, _ => dst

/-- The docids and freqs of records merged in order. -/
def foldDocs (dst : TermPostings) (g : List FileRecord) : TermPostings :=
  g.foldl (fun dst x => foldSlice dst x.toRawRecord) dst

/-- The record starts with the document the merged list ends with, and takes more
positions for it than there are. -/
def Jumps (dst : TermPostings) (x : RawRecord) (available : Nat) : Prop :=
  ∃ first headFc, x.docids.head? = some first ∧ x.freqs.head? = some headFc ∧
    dst.docids.getLast? = some first ∧ available < headFc

theorem foldSlice_same {a b : TermPostings} (h : SameDocs a b) (x : RawRecord) :
    SameDocs (foldSlice a x) (foldSlice b x) := by
  obtain ⟨hd, hf⟩ := h
  unfold foldSlice
  split
  · rw [hd, hf]
    split
    · exact ⟨rfl, rfl⟩
    · exact ⟨rfl, rfl⟩
  · exact ⟨hd, hf⟩

/-- Folding a record leaves the positions alone. -/
theorem foldSlice_rest (dst : TermPostings) (x : RawRecord) :
    (foldSlice dst x).streamed = dst.streamed ∧
      (foldSlice dst x).positionsFlat = dst.positionsFlat := by
  unfold foldSlice
  repeat' split
  all_goals exact ⟨rfl, rfl⟩

/-- One slice: the copy stays inside unless the slice jumps. -/
theorem concat_run (dst : TermPostings) {r : RunReader} (hasPositions : Bool)
    (hlen : r.docids.length = r.freqs.length) :
    (hasPositions = true ∧ Jumps dst r.record r.positionsFlat.length ∧
        concat dst r hasPositions = .error .outOfBounds) ∨
      (¬ (hasPositions = true ∧ Jumps dst r.record r.positionsFlat.length) ∧
        ∃ m, concat dst r hasPositions = .ok m ∧ SameDocs m (foldSlice dst r.record) ∧
          m.streamed = dst.streamed ∧
          (hasPositions = true → m.positionsFlat.length = dst.positionsFlat.length +
            if r.docids = [] then 0 else r.positionsFlat.length)) := by
  cases hd : r.docids with
  | nil =>
      right
      refine ⟨?_, dst, by simp [concat, hd], ?_, rfl, by simp⟩
      · rintro ⟨-, first, headFc, hfirst, -⟩
        rw [RunReader.record, hd] at hfirst
        cases hfirst
      · simp [foldSlice, RunReader.record, hd, SameDocs]
  | cons first docids =>
      cases hf : r.freqs with
      | nil =>
          rw [hd, hf] at hlen
          cases hlen
      | cons headFc freqs =>
          by_cases hlast : dst.docids.getLast? = some first
          · by_cases hjump : hasPositions = true ∧ headFc > r.positionsFlat.length
            · left
              refine ⟨hjump.1, ⟨first, headFc, by rw [RunReader.record, hd]; rfl,
                by rw [RunReader.record, hf]; rfl, hlast, hjump.2⟩, ?_⟩
              simp [concat, hd, hf, hlast, hjump]
            · right
              have hok : concat dst r hasPositions = .ok { dst with
                  docids := dst.docids ++ docids
                  freqs := dst.freqs.dropLast ++
                    [(dst.freqs.getLast?.getD 0 + headFc) % 2 ^ 32] ++ freqs
                  positionsFlat :=
                    if hasPositions then
                      dst.positionsFlat ++ r.positionsFlat.take headFc ++ r.positionsFlat.drop headFc
                    else dst.positionsFlat } := by
                simp only [concat, hd, hf, if_pos hlast, if_neg hjump]
              refine ⟨?_, _, hok, ?_, rfl, ?_⟩
              · rintro ⟨hp, first', headFc', h1, h2, -, h4⟩
                rw [RunReader.record, hf] at h2
                cases h2
                exact hjump ⟨hp, h4⟩
              · simp [foldSlice, RunReader.record, hd, hf, hlast, SameDocs]
              · intro hp
                simp only [hp, true_and] at hjump
                simp only [hp, if_true, List.length_append, List.length_take, List.length_drop,
                  reduceCtorEq, if_false]
                omega
          · right
            have hok : concat dst r hasPositions = .ok { dst with
                docids := dst.docids ++ first :: docids
                freqs := dst.freqs ++ headFc :: freqs
                positionsFlat :=
                  if hasPositions then dst.positionsFlat ++ r.positionsFlat
                  else dst.positionsFlat } := by
              simp only [concat, hd, hf, if_neg hlast]
            refine ⟨?_, _, hok, ?_, rfl, ?_⟩
            · rintro ⟨-, first', headFc', h1, -, h3, -⟩
              rw [RunReader.record, hd] at h1
              cases h1
              exact hlast h3
            · simp [foldSlice, RunReader.record, hd, hf, hlast, SameDocs]
            · intro hp
              simp [hp]

/-- Some record jumps, with all position blocks up to it complete. -/
def Overrun : TermPostings → List FileRecord → Prop
  | _, [] => False
  | dst, x :: g => x.complete = true ∧
      (Jumps dst x.toRawRecord x.posCount ∨ Overrun (foldSlice dst x.toRawRecord) g)

/-- Folding a slice in keeps docids and frequencies parallel. -/
theorem length_foldSlice {dst : TermPostings} {x : RawRecord}
    (hdst : dst.docids.length = dst.freqs.length) (hx : x.docids.length = x.freqs.length) :
    (foldSlice dst x).docids.length = (foldSlice dst x).freqs.length := by
  unfold foldSlice
  split
  · rename_i first docids headFc freqs hd hf
    rw [hd, hf, List.length_cons, List.length_cons] at hx
    split
    · rename_i hlast
      have hpos : 0 < dst.docids.length := by
        cases hdocs : dst.docids with
        | nil =>
            rw [hdocs] at hlast
            cases hlast
        | cons _ _ => simp
      simp only [List.length_append, List.length_dropLast, List.length_singleton]
      omega
    · simp only [List.length_append, List.length_cons]
      omega
  · exact hdst

/-- Folding a group too. -/
theorem length_foldDocs {dst : TermPostings} {g : List FileRecord}
    (hdst : dst.docids.length = dst.freqs.length)
    (hg : ∀ x ∈ g, x.docids.length = x.freqs.length) :
    (foldDocs dst g).docids.length = (foldDocs dst g).freqs.length := by
  induction g generalizing dst with
  | nil => exact hdst
  | cons x g ih =>
      exact ih (length_foldSlice hdst (hg x List.mem_cons_self)) fun y hy =>
        hg y (List.mem_cons_of_mem _ hy)

/-! ## The set of readers -/

/-- Every window is sound and every loaded record has as many freqs as docids. -/
def SoundReaders (hasPositions : Bool) (rs : List RunReader) : Prop :=
  ∀ r ∈ rs, InputAt r.input r.input.unread ∧ r.docids.length = r.freqs.length ∧
    r.hasPositions = hasPositions

/-- The readers of a group have taken positions of their records; the others stand
where they stood. -/
structure Shifted (group : List Nat) (rs rs' : List RunReader) : Prop where
  length : rs'.length = rs.length
  others : ∀ j : Nat, j ∉ group → rs'[j]? = rs[j]?
  moved : ∀ (j : Nat) r, rs[j]? = some r → ∃ r', rs'[j]? = some r' ∧ Moved r r'

variable {hasPositions : Bool} {rs rs' rs'' : List RunReader} {group : List Nat}

theorem Shifted.refl (h : SoundReaders hasPositions rs) : Shifted group rs rs where
  length := rfl
  others := fun _ _ => rfl
  moved := fun _ r hr => ⟨r, hr, Moved.refl (h r (List.mem_of_getElem? hr)).1⟩

theorem Shifted.trans (h : Shifted group rs rs') (h' : Shifted group rs' rs'') :
    Shifted group rs rs'' where
  length := h'.length.trans h.length
  others := fun j hj => (h'.others j hj).trans (h.others j hj)
  moved := by
    intro j r hr
    obtain ⟨r1, hr1, hm1⟩ := h.moved j r hr
    obtain ⟨r2, hr2, hm2⟩ := h'.moved j r1 hr1
    exact ⟨r2, hr2, hm1.trans hm2⟩

/-- A reader of the group may move. -/
theorem Shifted.set {i : Nat} {r r' : RunReader} (h : SoundReaders hasPositions rs)
    (hi : i ∈ group) (hr : rs[i]? = some r) (hmoved : Moved r r') :
    Shifted group rs (rs.set i r') where
  length := List.length_set
  others := by
    intro j hj
    apply List.getElem?_set_ne
    rintro rfl
    exact hj hi
  moved := by
    intro j x hx
    by_cases hij : i = j
    · subst hij
      rw [hr] at hx
      cases hx
      exact ⟨r', List.getElem?_set_self (List.getElem?_eq_some_iff.mp hr).1, hmoved⟩
    · rw [List.getElem?_set_ne hij]
      exact ⟨x, hx, Moved.refl (h x (List.mem_of_getElem? hx)).1⟩

/-- Moved readers are sound. -/
theorem Shifted.sound (h : Shifted group rs rs') (hrs : SoundReaders hasPositions rs) :
    SoundReaders hasPositions rs' := by
  intro r' hr'
  obtain ⟨j, hj⟩ := List.getElem?_of_mem hr'
  have hlt : j < rs.length := by
    rw [← h.length]
    exact (List.getElem?_eq_some_iff.mp hj).1
  obtain ⟨x, hx, hmoved⟩ := h.moved j rs[j] (List.getElem?_eq_getElem hlt)
  rw [hj] at hx
  cases hx
  obtain ⟨-, hlen, hflag⟩ := hrs _ (List.getElem_mem hlt)
  refine ⟨hmoved.input.self, ?_, hmoved.hasPositions.trans hflag⟩
  rw [hmoved.docids, hmoved.freqs]
  exact hlen

/-- The records a group's readers are parked at, in run order. -/
def members (rs : List RunReader) (group : List Nat) : List FileRecord :=
  group.filterMap fun ri => rs[ri]?.map RunReader.fileRecord

theorem members_cons {i : Nat} {r : RunReader} (hr : rs[i]? = some r) (group : List Nat) :
    members rs (i :: group) = r.fileRecord :: members rs group :=
  List.filterMap_cons_some (by rw [hr]; rfl)

/-- A group of records just loaded. -/
def Fresh (rs : List RunReader) (group : List Nat) : Prop :=
  ∀ i ∈ group, ∃ r, rs[i]? = some r ∧ r.posRemaining = r.posCount

theorem members_congr {rs rs' : List RunReader} {group : List Nat}
    (h : ∀ i ∈ group, rs'[i]? = rs[i]?) : members rs' group = members rs group :=
  List.filterMap_congr fun i hi => congrArg (Option.map RunReader.fileRecord) (h i hi)

theorem onReader_error {α : Type} {i : Nat} {p : RunM RunReader α} {r r' : RunReader} {s : Status}
    (hr : rs[i]? = some r) (hp : p r = .error s r') : onReader i p rs = .error s (rs.set i r') := by
  simp only [onReader, hr, hp]

/-- What copying the slices of a group with their positions gives. -/
theorem coalesce_copy_run {dst d0 : TermPostings} (hsame : SameDocs dst d0)
    (hrs : SoundReaders true rs) (hfresh : Fresh rs group) (hnodup : group.Nodup) :
    (∃ m rs', coalesce false true group dst rs = .ok m rs' ∧
        SameDocs m (foldDocs d0 (members rs group)) ∧ m.streamed = dst.streamed ∧
        m.positionsFlat.length = dst.positionsFlat.length +
          ((members rs group).map fun x => if x.docids = [] then 0 else x.posCount).sum ∧
        Shifted group rs rs' ∧ ¬ Overrun d0 (members rs group)) ∨
      (∃ rs', coalesce false true group dst rs = .error .outOfBounds rs' ∧
        Overrun d0 (members rs group)) ∨
      ∃ s rs', coalesce false true group dst rs = .error s rs' ∧ s.Reported ∧
        ¬ Overrun d0 (members rs group) ∧ ∃ x ∈ members rs group, x.complete = false := by
  induction group generalizing dst d0 rs with
  | nil => exact .inl ⟨dst, rs, rfl, hsame, rfl, rfl, Shifted.refl hrs, id⟩
  | cons i group ih =>
      obtain ⟨r, hr, hrem⟩ := hfresh i List.mem_cons_self
      obtain ⟨hinput, hlen, hflag⟩ := hrs r (List.mem_of_getElem? hr)
      obtain ⟨hi, hnodup⟩ := List.nodup_cons.mp hnodup
      rw [members_cons hr, coalesce]
      rcases RunReader.materializePositions_run hinput with
        ⟨hcomplete, r', hmat, hmoved, -, hflat⟩ | ⟨hshort, s, r', hmat, hs⟩
      · have hload : loadPositions false true i rs = .ok () (rs.set i r') := by
          simp only [loadPositions, and_self, if_true]
          exact onReader_ok hr hmat
        have hr' : (rs.set i r')[i]? = some r' :=
          List.getElem?_set_self (List.getElem?_eq_some_iff.mp hr).1
        have hlen' : r'.docids.length = r'.freqs.length := by
          rw [hmoved.docids, hmoved.freqs]
          exact hlen
        have hflat' : r'.positionsFlat.length = r.posCount := by
          rw [hflat, hflag, if_pos rfl, hrem]
        have hjumps : Jumps dst r'.record r'.positionsFlat.length ↔ Jumps d0 r.record r.posCount := by
          rw [hflat', hmoved.record_eq, Jumps, Jumps, hsame.1]
        have hdone : r.fileRecord.complete = true := decide_eq_true hcomplete
        rw [bind_ok hload, bind_ok (onReader_get hr')]
        simp only [Bool.false_eq_true, if_false]
        rcases concat_run dst true hlen' with ⟨-, hjump, hconcat⟩ | ⟨hstay, m, hconcat, hdocs, hst, hpos⟩
        · rw [hconcat]
          exact .inr (.inl ⟨_, rfl, hdone, .inl (hjumps.mp hjump)⟩)
        · rw [hconcat]
          simp only [true_and] at hstay
          have hset : Shifted (i :: group) rs (rs.set i r') :=
            Shifted.set hrs List.mem_cons_self hr hmoved
          have hother : ∀ j ∈ group, (rs.set i r')[j]? = rs[j]? := by
            intro j hj
            apply List.getElem?_set_ne
            rintro rfl
            exact hi hj
          have hnext : SameDocs m (foldSlice d0 r.record) := by
            have hd0 := foldSlice_same hsame r.record
            rw [hmoved.record_eq] at hdocs
            exact ⟨hdocs.1.trans hd0.1, hdocs.2.trans hd0.2⟩
          have hfresh' : Fresh (rs.set i r') group := by
            intro j hj
            rw [hother j hj]
            exact hfresh j (List.mem_cons_of_mem _ hj)
          have hmem := members_congr hother
          have hshift : ∀ rs2, Shifted group (rs.set i r') rs2 →
              Shifted (i :: group) rs rs2 := by
            intro rs2 h2
            have h3 : Shifted (i :: group) (rs.set i r') rs2 :=
              ⟨h2.length, fun j hj => h2.others j fun hg => hj (List.mem_cons_of_mem _ hg), h2.moved⟩
            exact hset.trans h3
          have hover : Overrun d0 (r.fileRecord :: members rs group) ↔
              Overrun (foldSlice d0 r.record) (members rs group) := by
            rw [Overrun]
            constructor
            · rintro ⟨-, hjump | hover⟩
              · exact absurd (hjumps.mpr hjump) hstay
              · exact hover
            · intro hover
              exact ⟨hdone, .inr hover⟩
          rw [hover]
          rcases ih hnext (hset.sound hrs) hfresh' hnodup with
            ⟨m2, rs2, h1, h2, h3, h4, h5, h6⟩ | ⟨rs2, h1, h2⟩ | ⟨s, rs2, h1, h2, h3, x, h4, h5⟩
          · left
            rw [hmem] at h2 h4 h6
            refine ⟨m2, rs2, h1, h2, h3.trans hst, ?_, hshift rs2 h5, h6⟩
            rw [h4, hpos rfl, hflat', hmoved.docids, List.map_cons, List.sum_cons]
            exact Nat.add_assoc _ _ _
          · rw [hmem] at h2
            exact .inr (.inl ⟨rs2, h1, h2⟩)
          · rw [hmem] at h3 h4
            exact .inr (.inr ⟨s, rs2, h1, h2, h3, x, List.mem_cons_of_mem _ h4, h5⟩)
      · have hload : loadPositions false true i rs = .error s (rs.set i r') := by
          simp only [loadPositions, and_self, if_true]
          exact onReader_error hr hmat
        rw [bind_error hload]
        have hcut : r.fileRecord.complete = false := decide_eq_false hshort
        refine .inr (.inr ⟨s, _, rfl, hs, ?_, r.fileRecord, List.mem_cons_self, hcut⟩)
        rintro ⟨hdone, -⟩
        rw [hcut] at hdone
        cases hdone

/-- Without positions to copy, the slices always coalesce and the readers stand still. -/
theorem coalesce_docs_run {stream : Bool} {dst d0 : TermPostings} (hsame : SameDocs dst d0)
    (hmode : stream = true ∨ hasPositions = false) (hrs : SoundReaders hasPositions rs)
    (hfresh : Fresh rs group) :
    ∃ m, coalesce stream hasPositions group dst rs = .ok m rs ∧
      SameDocs m (foldDocs d0 (members rs group)) ∧ m.streamed = dst.streamed ∧
      (hasPositions = true → m.positionsFlat = dst.positionsFlat) := by
  induction group generalizing dst d0 with
  | nil => exact ⟨dst, rfl, hsame, rfl, fun _ => rfl⟩
  | cons i group ih =>
      obtain ⟨r, hr, -⟩ := hfresh i List.mem_cons_self
      obtain ⟨-, hlen, -⟩ := hrs r (List.mem_of_getElem? hr)
      have hload : loadPositions stream hasPositions i rs = .ok () rs := by
        have hnot : ¬ (stream = false ∧ hasPositions = true) := by
          rcases hmode with h | h <;> simp [h]
        simp only [loadPositions, if_neg hnot]
        rfl
      have hfresh' : Fresh rs group := fun j hj => hfresh j (List.mem_cons_of_mem _ hj)
      rw [coalesce, bind_ok hload, bind_ok (onReader_get hr), members_cons hr]
      cases stream with
      | true =>
          simp only [if_true]
          obtain ⟨hst, hflat⟩ := foldSlice_rest dst r.record
          obtain ⟨m, h1, h2, h3, h4⟩ := ih (foldSlice_same hsame r.record) hfresh'
          exact ⟨m, h1, h2, h3.trans hst, fun hp => (h4 hp).trans hflat⟩
      | false =>
          have hpos : hasPositions = false := by
            rcases hmode with h | h
            · cases h
            · exact h
          subst hpos
          simp only [Bool.false_eq_true, if_false]
          rcases concat_run dst false hlen with ⟨h, -⟩ | ⟨-, m, hconcat, hdocs, hst, -⟩
          · cases h
          · rw [hconcat]
            have hnext : SameDocs m (foldSlice d0 r.record) := by
              have hd0 := foldSlice_same hsame r.record
              exact ⟨hdocs.1.trans hd0.1, hdocs.2.trans hd0.2⟩
            obtain ⟨m2, h1, h2, h3, -⟩ := ih hnext hfresh'
            exact ⟨m2, h1, h2, h3.trans hst, by simp⟩

/-- The second pass reads every position block of the group, or one is cut short. -/
theorem materializeAll_run {dst : TermPostings} (hrs : SoundReaders true rs)
    (hfresh : Fresh rs group) (hnodup : group.Nodup) :
    (∃ m rs', materializeAll group dst rs = .ok m rs' ∧ SameDocs m dst ∧
        m.streamed = dst.streamed ∧
        m.positionsFlat.length = dst.positionsFlat.length +
          ((members rs group).map fun x => x.posCount).sum ∧ Shifted group rs rs') ∨
      ∃ s rs', materializeAll group dst rs = .error s rs' ∧ s.Reported ∧
        ∃ x ∈ members rs group, x.complete = false := by
  induction group generalizing dst rs with
  | nil => exact .inl ⟨dst, rs, rfl, ⟨rfl, rfl⟩, rfl, rfl, Shifted.refl hrs⟩
  | cons i group ih =>
      obtain ⟨r, hr, hrem⟩ := hfresh i List.mem_cons_self
      obtain ⟨hinput, -, hflag⟩ := hrs r (List.mem_of_getElem? hr)
      obtain ⟨hi, hnodup⟩ := List.nodup_cons.mp hnodup
      rw [members_cons hr, materializeAll]
      rcases RunReader.materializePositions_run hinput with
        ⟨-, r', hmat, hmoved, -, hflat⟩ | ⟨hshort, s, r', hmat, hs⟩
      · have hr' : (rs.set i r')[i]? = some r' :=
          List.getElem?_set_self (List.getElem?_eq_some_iff.mp hr).1
        have hset : Shifted (i :: group) rs (rs.set i r') :=
          Shifted.set hrs List.mem_cons_self hr hmoved
        have hother : ∀ j ∈ group, (rs.set i r')[j]? = rs[j]? := by
          intro j hj
          apply List.getElem?_set_ne
          rintro rfl
          exact hi hj
        have hfresh' : Fresh (rs.set i r') group := by
          intro j hj
          rw [hother j hj]
          exact hfresh j (List.mem_cons_of_mem _ hj)
        rw [bind_ok (onReader_ok hr hmat), bind_ok (onReader_get hr')]
        rcases @ih _ { dst with positionsFlat := dst.positionsFlat ++ r'.positionsFlat }
          (hset.sound hrs) hfresh' hnodup with
          ⟨m, rs2, h1, h2, h3, h4, h5⟩ | ⟨s, rs2, h1, h2, x, h3, h4⟩
        · left
          rw [members_congr hother] at h4
          refine ⟨m, rs2, h1, h2, h3, ?_, ?_⟩
          · rw [h4, List.length_append, hflat, hflag, if_pos rfl, hrem, List.map_cons, List.sum_cons]
            exact Nat.add_assoc _ _ _
          · exact hset.trans ⟨h5.length,
              fun j hj => h5.others j fun hg => hj (List.mem_cons_of_mem _ hg), h5.moved⟩
        · rw [members_congr hother] at h3
          exact .inr ⟨s, rs2, h1, h2, x, List.mem_cons_of_mem _ h3, h4⟩
      · rw [bind_error (onReader_error hr hmat)]
        exact .inr ⟨s, _, rfl, hs, r.fileRecord, List.mem_cons_self, decide_eq_false hshort⟩

/-! ## The pump -/

/-- The pump has moved the group's readers, or one of their blocks is cut short. -/
def Pumped (group : List Nat) (rs : List RunReader) (st : PumpState) : Prop :=
  (st.status = none ∧ Shifted group rs st.readers) ∨
    ∃ s, st.status = some s ∧ s.Reported ∧ ∃ x ∈ members rs group, x.complete = false

theorem pumpPull_status {n fuel : Nat} {st : PumpState} {s : Status} (h : st.status = some s) :
    (pumpPull group fuel n st).2.status = some s := by
  induction fuel generalizing n st with
  | zero => exact h
  | succ fuel ih =>
      rw [pumpPull]
      split
      · exact h
      · split
        · exact h
        · simp only
          split
          · exact ih h
          · split
            · simp [h]
            · exact ih h

/-- **A pull** moves readers of the group only. -/
theorem pumpPull_run {n fuel : Nat} {st : PumpState} (hrs : SoundReaders hasPositions rs)
    (h : Pumped group rs st) : Pumped group rs (pumpPull group fuel n st).2 := by
  rcases h with ⟨hnone, hshift⟩ | ⟨s, hsome, hrest⟩
  · induction fuel generalizing n st with
    | zero => exact .inl ⟨hnone, hshift⟩
    | succ fuel ih =>
        rw [pumpPull]
        split
        · exact .inl ⟨hnone, hshift⟩
        · split
          · exact .inl ⟨hnone, hshift⟩
          · rename_i ri hri
            simp only
            have hmem : ri ∈ group := List.mem_of_getElem? hri
            split
            · exact ih hnone hshift
            · rename_i hrem
              cases hr : st.readers[ri]? with
              | none =>
                  rw [hr] at hrem
                  exact absurd rfl hrem
              | some r =>
                  rw [hr] at hrem
                  simp only [Option.map_some, Option.getD_some] at hrem ⊢
                  have hsound := hshift.sound hrs
                  have hinput := (hsound r (List.mem_of_getElem? hr)).1
                  rcases @RunReader.streamPositions_run r (min n r.posRemaining) hinput
                    (Nat.min_le_right _ _) with ⟨block, r', hstream, hmoved, -⟩ |
                    ⟨hshort, s, r', hstream, hs⟩
                  · rw [onReader_ok hr hstream]
                    simp only
                    exact ih hnone (hshift.trans (Shifted.set hsound hmem hr hmoved))
                  · rw [onReader_error hr hstream]
                    right
                    refine ⟨s, by simp [hnone], hs, ?_⟩
                    have hlt : ri < rs.length := by
                      rw [← hshift.length]
                      exact (List.getElem?_eq_some_iff.mp hr).1
                    obtain ⟨x, hx, hmv⟩ := hshift.moved ri rs[ri] (List.getElem?_eq_getElem hlt)
                    rw [hr] at hx
                    cases hx
                    refine ⟨rs[ri].fileRecord, ?_,
                      decide_eq_false fun hc => hshort (hmv.complete_iff.mpr hc)⟩
                    exact List.mem_filterMap.mpr ⟨ri, hmem, by
                      rw [List.getElem?_eq_getElem hlt]; rfl⟩
  · exact .inr ⟨s, pumpPull_status hsome, hrest⟩

/-- Pulls move readers of the group only. -/
theorem pumpPulls_run {sizes : List Nat} {st : PumpState} (hrs : SoundReaders hasPositions rs)
    (h : Pumped group rs st) : Pumped group rs (pumpPulls group sizes st).2 := by
  induction sizes generalizing st with
  | nil => exact h
  | cons n sizes ih =>
      rw [pumpPulls]
      simp only
      apply ih
      exact pumpPull_run hrs h

/-! ## One merged term -/

/-- The sum of the position counts, in 64 bits. -/
def posCounts (g : List FileRecord) : Nat := (g.map fun x => x.posCount).sum % 2 ^ 64

/-- Whether a group of records is emitted with a pump. -/
def streams (cfg : MergeConfig) (g : List FileRecord) : Bool :=
  cfg.allowStream &&
    shouldStreamPositions (g.map fun x => x.docids.length).sum (posCounts g) cfg.hasPositions

/-- The positions a group's term comes with: a copied slice without documents brings
none, a streamed block counts as it is declared. -/
def availablePositions (cfg : MergeConfig) (g : List FileRecord) : Nat :=
  if streams cfg g then
    if (foldDocs {} g).docids.length < kSlimDfThreshold then (g.map fun x => x.posCount).sum
    else posCounts g
  else (g.map fun x => if x.docids = [] then 0 else x.posCount).sum

/-- The positions a callback can get at. -/
def Emitted.available (e : Emitted) : Nat :=
  if e.postings.streamed then e.postings.posTotal else e.postings.positionsFlat.length

/-- The copy of a group's positions runs past the end of a record's positions. -/
def Misfit (cfg : MergeConfig) (g : List FileRecord) : Prop :=
  cfg.hasPositions = true ∧ streams cfg g = false ∧ Overrun {} g

/-- The `reserve` for a group whose positions are copied is not granted. -/
def Overfull (cfg : MergeConfig) (g : List FileRecord) : Prop :=
  cfg.hasPositions = true ∧
    (streams cfg g = true → (foldDocs {} g).docids.length < kSlimDfThreshold) ∧
      cfg.room.all (posCounts g ≤ ·) = false

/-- Reserving throws exactly where the room is too small. -/
theorem reservePositions_run {σ : Type} (cfg : MergeConfig) (copied : Bool) (n : Nat) (s : σ) :
    (copied = true ∧ cfg.room.all (n ≤ ·) = false ∧
        reservePositions cfg copied n s = .error .thrown s) ∨
      (¬ (copied = true ∧ cfg.room.all (n ≤ ·) = false) ∧
        reservePositions cfg copied n s = .ok () s) := by
  rw [reservePositions]
  cases copied with
  | false => exact .inr ⟨by simp, rfl⟩
  | true =>
      cases hroom : cfg.room.all (n ≤ ·) with
      | false => exact .inl ⟨rfl, rfl, rfl⟩
      | true => exact .inr ⟨by simp, rfl⟩

/-- What becomes of a group: its term is emitted, the copy leaves a record's positions, the
`reserve` throws, or a position block turns out to be cut short. -/
inductive Emission (cfg : MergeConfig) (group : List Nat) (rs : List RunReader) :
    EStateM.Result Status (List RunReader) (Emitted × Option Status) → Prop
  | emitted {e : Emitted} {rs' : List RunReader} (shift : Shifted group rs rs')
      (docs : SameDocs e.postings (foldDocs {} (members rs group)))
      (available : cfg.hasPositions = true →
        e.available = availablePositions cfg (members rs group))
      (fits : ¬ Misfit cfg (members rs group)) (granted : ¬ Overfull cfg (members rs group)) :
      Emission cfg group rs (.ok (e, none) rs')
  | misfit {rs' : List RunReader} (misfit : Misfit cfg (members rs group))
      (granted : ¬ Overfull cfg (members rs group)) :
      Emission cfg group rs (.error .outOfBounds rs')
  | overfull {rs' : List RunReader} (overfull : Overfull cfg (members rs group)) :
      Emission cfg group rs (.error .thrown rs')
  | failed {s : Status} {rs' : List RunReader} (reported : s.Reported)
      (cut : ∃ x ∈ members rs group, x.complete = false)
      (fits : ¬ Misfit cfg (members rs group)) (granted : ¬ Overfull cfg (members rs group)) :
      Emission cfg group rs (.error s rs')
  | cutShort {e : Emitted} {s : Status} {rs' : List RunReader} (reported : s.Reported)
      (cut : ∃ x ∈ members rs group, x.complete = false)
      (fits : ¬ Misfit cfg (members rs group)) (granted : ¬ Overfull cfg (members rs group)) :
      Emission cfg group rs (.ok (e, some s) rs')

variable {cfg : MergeConfig}

/-- A group whose positions are copied, with the `reserve` granted. -/
theorem emission_copied {dst : TermPostings} (hdst : SameDocs dst {})
    (hrest : dst.positionsFlat = [] ∧ dst.streamed = false)
    (hrs : SoundReaders cfg.hasPositions rs) (hfresh : Fresh rs group) (hnodup : group.Nodup)
    (hst : streams cfg (members rs group) = false)
    (hgranted : ¬ Overfull cfg (members rs group)) :
    Emission cfg group rs ((coalesce false cfg.hasPositions group dst >>= fun merged =>
      pure ({ postings := merged }, none)) rs) := by
  have hmiss : Misfit cfg (members rs group) ↔
      cfg.hasPositions = true ∧ Overrun {} (members rs group) := by
    rw [Misfit, hst]
    simp
  have havail : availablePositions cfg (members rs group) =
      ((members rs group).map fun x => if x.docids = [] then 0 else x.posCount).sum := by
    rw [availablePositions, hst]
    simp
  cases hpos : cfg.hasPositions with
  | false =>
      rw [hpos] at hrs
      obtain ⟨m, h1, h2, h3, -⟩ := @coalesce_docs_run _ _ _ false _ _ hdst (.inr rfl) hrs hfresh
      rw [bind_ok h1]
      exact Emission.emitted (Shifted.refl hrs) h2 (by simp [hpos])
        (by rw [hmiss, hpos]; simp) hgranted
  | true =>
      rw [hpos] at hrs
      rcases coalesce_copy_run hdst hrs hfresh hnodup with
        ⟨m, rs', h1, h2, h3, h4, h5, h6⟩ | ⟨rs', h1, h2⟩ | ⟨s, rs', h1, h2, h3, h4⟩
      · rw [bind_ok h1]
        refine Emission.emitted h5 h2 (fun _ => ?_) (fun h => h6 (hmiss.mp h).2) hgranted
        rw [Emitted.available, havail]
        simp only [h3, hrest.2, Bool.false_eq_true, if_false]
        rw [h4, hrest.1]
        exact Nat.zero_add _
      · rw [bind_error h1]
        exact Emission.misfit (hmiss.mpr ⟨hpos, h2⟩) hgranted
      · rw [bind_error h1]
        exact Emission.failed h2 h4 (fun h => h3 (hmiss.mp h).2) hgranted

/-- A group that was to be streamed and has turned out slim, with the `reserve` granted. -/
theorem emission_slim {m : TermPostings} (hpos : cfg.hasPositions = true)
    (hrs : SoundReaders cfg.hasPositions rs) (hfresh : Fresh rs group) (hnodup : group.Nodup)
    (hst : streams cfg (members rs group) = true)
    (hdocs : SameDocs m (foldDocs {} (members rs group)))
    (hrest : m.positionsFlat = [] ∧ m.streamed = false)
    (hslim : m.docids.length < kSlimDfThreshold)
    (hgranted : ¬ Overfull cfg (members rs group)) :
    Emission cfg group rs ((materializeAll group m >>= fun merged =>
      pure ({ postings := merged }, none)) rs) := by
  have hmiss : ¬ Misfit cfg (members rs group) := by
    rw [Misfit, hst]
    simp
  rw [hpos] at hrs
  rcases @materializeAll_run _ _ m hrs hfresh hnodup with
    ⟨m2, rs', g1, g2, g3, g4, g5⟩ | ⟨s, rs', g1, g2, g3⟩
  · rw [bind_ok g1]
    refine Emission.emitted g5 ⟨g2.1.trans hdocs.1, g2.2.trans hdocs.2⟩ (fun _ => ?_) hmiss hgranted
    rw [Emitted.available, availablePositions, hst, if_pos rfl, ← hdocs.1, if_pos hslim]
    simp only [g3, hrest.2, Bool.false_eq_true, if_false]
    rw [g4, hrest.1]
    exact Nat.zero_add _
  · rw [bind_error g1]
    exact Emission.failed g2 g3 hmiss hgranted

/-- A wide group, its positions pulled by the callback. -/
theorem emission_streamed {m : TermPostings} (hrs : SoundReaders cfg.hasPositions rs)
    (hst : streams cfg (members rs group) = true)
    (hdocs : SameDocs m (foldDocs {} (members rs group)))
    (hwide : ¬ m.docids.length < kSlimDfThreshold) :
    Emission cfg group rs (emitStreamed cfg group m (posCounts (members rs group)) rs) := by
  have hmiss : ¬ Misfit cfg (members rs group) := by
    rw [Misfit, hst]
    simp
  have hgranted : ¬ Overfull cfg (members rs group) := by
    rintro ⟨-, hslim, -⟩
    exact hwide (hdocs.1 ▸ hslim hst)
  have hpump := @pumpPulls_run _ _ _ (cfg.plan { m with streamed := true
                                                        posTotal := posCounts (members rs group) })
    { readers := rs } hrs (.inl ⟨rfl, @Shifted.refl _ _ group hrs⟩)
  rw [emitStreamed]
  simp only
  rcases hpump with ⟨hnone, hshift⟩ | ⟨s, hsome, hs, hcut⟩
  · rw [hnone]
    refine Emission.emitted hshift hdocs (fun _ => ?_) hmiss hgranted
    rw [Emitted.available, availablePositions, hst, if_pos rfl, ← hdocs.1, if_neg hwide]
    rfl
  · rw [hsome]
    exact Emission.cutShort hs hcut hmiss hgranted

/-- **A merged term** on any files. -/
theorem emitTerm_run (term : Bytes) (hrs : SoundReaders cfg.hasPositions rs)
    (hfresh : Fresh rs group) (hnodup : group.Nodup) :
    Emission cfg group rs (emitTerm cfg term group rs) := by
  have hget : (get : RunM (List RunReader) (List RunReader)) rs = .ok rs rs := rfl
  have hsame : SameDocs { term := term } {} := ⟨rfl, rfl⟩
  have hmembers : members rs group = (group.filterMap fun ri => rs[ri]?).map RunReader.fileRecord := by
    rw [members, List.map_filterMap]
  have hcounts : ((group.filterMap fun ri => rs[ri]?).map RunReader.posCount).sum % 2 ^ 64 =
      posCounts (members rs group) := by
    rw [posCounts, hmembers, List.map_map]
    rfl
  have hstream : (cfg.allowStream && shouldStreamPositions
      ((group.filterMap fun ri => rs[ri]?).map fun r => r.docids.length).sum
      (posCounts (members rs group)) cfg.hasPositions) = streams cfg (members rs group) := by
    rw [streams, hmembers, List.map_map]
    rfl
  rw [emitTerm, bind_ok hget]
  simp only [hcounts, hstream]
  cases hst : streams cfg (members rs group) with
  | false =>
      have hfull : Overfull cfg (members rs group) ↔ (!false && cfg.hasPositions) = true ∧
          cfg.room.all (posCounts (members rs group) ≤ ·) = false := by
        rw [Overfull, hst]
        simp
      rcases reservePositions_run cfg (!false && cfg.hasPositions) (posCounts (members rs group)) rs
        with ⟨hcopied, hroom, hreserve⟩ | ⟨hgranted, hreserve⟩
      · rw [bind_error hreserve]
        exact Emission.overfull (hfull.mpr ⟨hcopied, hroom⟩)
      · rw [bind_ok hreserve]
        exact emission_copied hsame ⟨rfl, rfl⟩ hrs hfresh hnodup hst fun h => hgranted (hfull.mp h)
  | true =>
      have hpos : cfg.hasPositions = true := by
        have hboth := (Bool.and_eq_true_iff.mp hst).2
        simp only [shouldStreamPositions, Bool.and_eq_true] at hboth
        exact hboth.1.1
      have hfirst : reservePositions cfg (!true && cfg.hasPositions)
          (posCounts (members rs group)) rs = .ok () rs := rfl
      obtain ⟨m, h1, h2, h3, h4⟩ := @coalesce_docs_run _ _ _ true _ _ hsame (.inl rfl) hrs hfresh
      rw [bind_ok hfirst, bind_ok h1]
      simp only [Bool.true_and, decide_eq_true_eq, if_true]
      by_cases hslim : m.docids.length < kSlimDfThreshold
      · rw [if_pos hslim]
        have hfull : Overfull cfg (members rs group) ↔ true = true ∧
            cfg.room.all (posCounts (members rs group) ≤ ·) = false := by
          rw [Overfull, hst, ← h2.1, hpos]
          simp [hslim]
        rcases reservePositions_run cfg true (posCounts (members rs group)) rs
          with ⟨hcopied, hroom, hreserve⟩ | ⟨hgranted, hreserve⟩
        · rw [bind_error hreserve]
          exact Emission.overfull (hfull.mpr ⟨hcopied, hroom⟩)
        · rw [bind_ok hreserve]
          exact emission_slim hpos hrs hfresh hnodup hst h2 ⟨h4 hpos, h3⟩ hslim fun h =>
            hgranted (hfull.mp h)
      · rw [if_neg hslim]
        exact emission_streamed hrs hst h2 hslim

end Snii.Writer.SpillRunCodec
