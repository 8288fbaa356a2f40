import Snii.Format.DictBlock

/-!
# Dictionary blocks from untrusted bytes

No input makes `open`, `find_term` or `decode_all` read outside the block.  What `open`
checks of the anchor table is kept (`Opened`), so every anchor's segment lies between
the header and the table; `EntryLoop` is the source's loop over a segment without a
bound on its rounds, and every segment has such a run because an entry takes at least
the byte of its length.  `open` itself is not bound to segments: it decodes the entry at
an anchor from all bytes up to the anchor table, and an entry may reach behind the next
anchor.  `decode_all` needs memory for the number of entries the header states, which
nothing compares with the block's length.
-/

namespace Snii.Format.DictBlock

open Snii.Lib.ByteReader Snii.Lib.SortedSearch Snii.Common
open Snii.Encoding.ByteSource Snii.Encoding.Crc32c Snii.Format.Dict

/-! ## Entries -/

/-- A source that stays inside its input and looks no further than it reads. -/
structure Contained {α : Type} (p : Source α) : Prop where
  avoids : Avoids p .outOfBounds
  prefixed : Prefixed p

namespace Contained

variable {α β : Type}

/-- A value reads nothing. -/
theorem pure (x : α) : Contained (Pure.pure x : Source α) := ⟨Avoids.pure x, Prefixed.pure x⟩

theorem throw {s : Status} (h : s ≠ .outOfBounds) :
    Contained (MonadExcept.throw s : Source α) := ⟨Avoids.throw h, Prefixed.throw s⟩

/-- Reads in a row stay inside when each does. -/
theorem bind {p : Source α} {f : α → Source β} (hp : Contained p) (hf : ∀ x, Contained (f x)) :
    Contained (p >>= f) :=
  ⟨hp.avoids.bind fun x => (hf x).avoids, hp.prefixed.bind fun x => (hf x).prefixed⟩

/-- Both branches stay inside. -/
theorem ite {c : Prop} [Decidable c] {p q : Source α} (hp : Contained p) (hq : Contained q) :
    Contained (if c then p else q) :=
  ⟨hp.avoids.ite hq.avoids, hp.prefixed.ite hq.prefixed⟩

end Contained

theorem contained_getU8 : Contained getU8 := ⟨avoids_getU8, prefixed_getU8⟩

theorem contained_getFixed32 : Contained getFixed32 := ⟨avoids_getFixed32, prefixed_getFixed32⟩

theorem contained_getVarint64 : Contained getVarint64 := ⟨avoids_getVarint64, prefixed_getVarint64⟩

theorem contained_getVarint32 : Contained getVarint32 := ⟨avoids_getVarint32, prefixed_getVarint32⟩

theorem contained_getBytes (n : Nat) : Contained (getBytes n) :=
  ⟨avoids_getBytes n, prefixed_getBytes n⟩

/-- A front-coded term key. -/
theorem contained_readTermKey (prev : Bytes) : Contained (readTermKey prev) := by
  apply contained_getVarint32.bind
  intro pre
  apply contained_getVarint32.bind
  intro suffixLen
  apply Contained.ite (Contained.throw (by simp))
  exact (contained_getBytes suffixLen).bind fun _ => Contained.pure _

/-- The statistics of the tiers that store them. -/
theorem contained_readStats (tier : IndexTier) : Contained (readStats tier) := by
  apply contained_getVarint32.bind
  intro df
  apply Contained.ite _ (Contained.pure _)
  exact contained_getVarint64.bind fun _ => contained_getVarint64.bind fun _ => Contained.pure _

/-- What describes one region. -/
theorem contained_readRegion (zstd hasCrc : Bool) (diskLen : Nat) :
    Contained (readRegion zstd hasCrc diskLen) := by
  apply contained_getVarint64.bind
  intro uncompLen
  apply Contained.ite _ (Contained.pure _)
  exact contained_getFixed32.bind fun _ => Contained.pure _

theorem contained_readRegionMeta (tier : IndexTier) (hasCrc : Bool) (ddLen freqLen : Nat) :
    Contained (readRegionMeta tier hasCrc ddLen freqLen) := by
  apply contained_getU8.bind
  intro mode
  apply Contained.ite (Contained.throw (by simp))
  apply (contained_readRegion _ _ _).bind
  intro dd
  apply Contained.ite
  · exact (contained_readRegion _ _ _).bind fun _ => Contained.pure _
  · exact Contained.ite (Contained.throw (by simp)) (Contained.pure _)

theorem contained_readPrxRef (tier : IndexTier) : Contained (readPrxRef tier) := by
  apply Contained.ite _ (Contained.pure _)
  exact contained_getVarint64.bind fun _ => contained_getVarint64.bind fun _ => Contained.pure _

/-- Where an entry's spans are in the posting region. -/
theorem contained_readPodRef (tier : IndexTier) (e : DictEntry) :
    Contained (readPodRef tier e) := by
  apply contained_getVarint64.bind
  intro frqOffDelta
  apply contained_getVarint64.bind
  intro frqLen
  apply Contained.ite
  · exact contained_getVarint64.bind fun _ => (contained_readPrxRef tier).bind fun _ =>
      Contained.pure _
  · apply contained_getVarint64.bind
    intro frqDocsLen
    apply Contained.ite (Contained.throw (by simp))
    exact (contained_readRegionMeta _ _ _ _).bind fun _ => (contained_readPrxRef tier).bind fun _ =>
      Contained.pure _

theorem contained_readByteBlob : Contained readByteBlob :=
  contained_getVarint64.bind contained_getBytes

/-- The bytes an inline entry carries. -/
theorem contained_readInline (tier : IndexTier) (e : DictEntry) :
    Contained (readInline tier e) := by
  apply contained_readByteBlob.bind
  intro frqBytes
  apply contained_getVarint64.bind
  intro ddLen
  apply Contained.ite (Contained.throw (by simp))
  apply (contained_readRegionMeta _ _ _ _).bind
  intro metas
  have hprx : Contained (readPrxBytes tier) :=
    Contained.ite contained_readByteBlob (Contained.pure _)
  exact hprx.bind fun _ => Contained.pure _

/-- **An entry** is read inside its bytes, whatever they are. -/
theorem contained_readBody (prev : Bytes) (tier : IndexTier) : Contained (readBody prev tier) := by
  apply (contained_readTermKey prev).bind
  intro term
  apply contained_getU8.bind
  intro flags
  apply (contained_readStats tier).bind
  intro stats
  exact Contained.ite (contained_readInline tier _) (contained_readPodRef tier _)

/-- **No entry is read past its source.** -/
theorem avoids_decodeDictEntry (prev : Bytes) (tier : IndexTier) :
    Avoids (decodeDictEntry prev tier) .outOfBounds := by
  have hlen : Avoids readEntryLen .outOfBounds :=
    avoids_getVarint64.bind fun _ => avoids_remaining.bind fun _ =>
      Avoids.ite (Avoids.throw (by simp)) (Avoids.pure _)
  apply hlen.bind
  intro total
  apply (contained_readBody prev tier).avoids.consumed.bind
  intro r
  exact Avoids.ite (Avoids.throw (by simp)) (Avoids.pure _)

/-- **An entry is read from its own bytes**: at least one for the length, then the body. -/
theorem decodeDictEntry_run {prev bs rest : Bytes} {tier : IndexTier} {e : DictEntry}
    (h : (decodeDictEntry prev tier).run bs = .ok (e, rest)) :
    ∃ len body, bs = len ++ body ++ rest ∧ len ≠ [] ∧ Reads (readBody prev tier) body e := by
  obtain ⟨total, mid, htotal, hentry⟩ := run_bind_eq_ok.mp h
  have hlen : ∃ len, bs = len ++ mid ∧ len ≠ [] := by
    obtain ⟨v, behind, hv, hcheck⟩ := run_bind_eq_ok.mp htotal
    obtain ⟨left, same, hleft, hguard⟩ := run_bind_eq_ok.mp hcheck
    obtain ⟨used, hused, hreads⟩ := prefixed_getVarint64 _ _ _ hv
    cases hleft
    have hmid : behind = mid := by
      by_cases hlong : v > behind.length
      · rw [if_pos hlong] at hguard
        cases hguard
      · rw [if_neg hlong] at hguard
        cases hguard
        rfl
    refine ⟨used, by rw [hused, hmid], ?_⟩
    rintro rfl
    cases hreads []
  obtain ⟨len, rfl, hne⟩ := hlen
  obtain ⟨⟨e', body⟩, behind, hconsumed, hcheck⟩ := run_bind_eq_ok.mp hentry
  obtain ⟨rfl, hreads⟩ := run_consumed (contained_readBody prev tier).prefixed hconsumed
  have hend : e' = e ∧ behind = rest := by
    simp only at hcheck
    by_cases hlength : body.length ≠ total
    · rw [if_pos hlength] at hcheck
      cases hcheck
    · rw [if_neg hlength] at hcheck
      cases hcheck
      exact ⟨rfl, rfl⟩
  obtain ⟨rfl, rfl⟩ := hend
  exact ⟨len, body, (List.append_assoc _ _ _).symm, hne, hreads⟩

/-! ## The loops over a segment -/

/-- `while (!src.eof())`: an entry is decoded against the one before, until one of them
stops the loop.  The result lists the entries decoded. -/
inductive EntryLoop (tier : IndexTier) (stop : DictEntry → Bool) :
    Bytes → Bytes → Result (List DictEntry) → Prop
  | eof (prev : Bytes) : EntryLoop tier stop prev [] (.ok [])
  | error (prev bs : Bytes) (s : Status) (more : bs ≠ [])
      (entry : (decodeDictEntry prev tier).run bs = .error s) : EntryLoop tier stop prev bs (.error s)
  | stop (prev bs rest : Bytes) (e : DictEntry) (more : bs ≠ [])
      (entry : (decodeDictEntry prev tier).run bs = .ok (e, rest)) (last : stop e = true) :
      EntryLoop tier stop prev bs (.ok [e])
  | next (prev bs rest : Bytes) (e : DictEntry) (r : Result (List DictEntry)) (more : bs ≠ [])
      (entry : (decodeDictEntry prev tier).run bs = .ok (e, rest)) (goes : stop e = false)
      (tail : EntryLoop tier stop e.term rest r) :
      EntryLoop tier stop prev bs (r.map (e :: ·))

/-- The bytes left shrink with every entry. -/
theorem decodeDictEntry_shrinks {prev bs rest : Bytes} {tier : IndexTier} {e : DictEntry}
    (h : (decodeDictEntry prev tier).run bs = .ok (e, rest)) : rest.length < bs.length := by
  obtain ⟨len, body, rfl, hne, -⟩ := decodeDictEntry_run h
  have hpos := List.length_pos_iff.mpr hne
  simp only [List.length_append]
  omega

/-- **`decode_all` over a segment ends**, as `decodeEntries` computes it. -/
theorem decodeEntries_loop {tier : IndexTier} {fuel : Nat} {prev bs : Bytes}
    (hfuel : bs.length ≤ fuel) :
    EntryLoop tier (fun _ => false) prev bs
      (((decodeEntries tier fuel prev).run bs).map Prod.fst) := by
  induction fuel generalizing prev bs with
  | zero =>
      obtain rfl := List.eq_nil_of_length_eq_zero (Nat.le_zero.mp hfuel)
      exact EntryLoop.eof prev
  | succ fuel ih =>
      cases bs with
      | nil => exact EntryLoop.eof prev
      | cons b bs =>
          rw [decodeEntries, eof_run_bind]
          simp only [List.isEmpty_cons, Bool.false_eq_true, if_false]
          rw [StateT.run_bind]
          cases hentry : (decodeDictEntry prev tier).run (b :: bs) with
          | error s => exact EntryLoop.error prev (b :: bs) s (List.cons_ne_nil _ _) hentry
          | ok r =>
              obtain ⟨e, rest⟩ := r
              have hshrinks := decodeDictEntry_shrinks hentry
              rw [List.length_cons] at hfuel hshrinks
              have htail := @ih e.term rest (by omega)
              have hnext := EntryLoop.next prev (b :: bs) rest e _ (List.cons_ne_nil _ _) hentry rfl
                htail
              rw [ok_bind]
              simp only [StateT.run_bind]
              cases hrest : (decodeEntries tier fuel e.term).run rest with
              | error s =>
                  rw [hrest] at hnext
                  exact hnext
              | ok r' =>
                  rw [hrest] at hnext
                  exact hnext

/-- What the scan makes of the entries it has decoded. -/
def scanned (target : Bytes) (entries : List DictEntry) : Option DictEntry :=
  entries.getLast?.filter fun e => e.term = target

/-- **`scan_from_anchor` over a segment ends**, as `scanEntries` computes it. -/
theorem scanEntries_loop {tier : IndexTier} {fuel : Nat} {prev bs target : Bytes}
    (hfuel : bs.length ≤ fuel) :
    ∃ r, EntryLoop tier (fun e => decide (target ≤ e.term)) prev bs r ∧
      ((scanEntries tier target fuel prev).run bs).map Prod.fst = r.map (scanned target) := by
  induction fuel generalizing prev bs with
  | zero =>
      obtain rfl := List.eq_nil_of_length_eq_zero (Nat.le_zero.mp hfuel)
      exact ⟨_, EntryLoop.eof prev, rfl⟩
  | succ fuel ih =>
      cases bs with
      | nil => exact ⟨_, EntryLoop.eof prev, rfl⟩
      | cons b bs =>
          rw [scanEntries, eof_run_bind]
          simp only [List.isEmpty_cons, Bool.false_eq_true, if_false]
          rw [StateT.run_bind]
          cases hentry : (decodeDictEntry prev tier).run (b :: bs) with
          | error s => exact ⟨_, EntryLoop.error prev (b :: bs) s (List.cons_ne_nil _ _) hentry, rfl⟩
          | ok r =>
              obtain ⟨e, rest⟩ := r
              have hshrinks := decodeDictEntry_shrinks hentry
              rw [List.length_cons] at hfuel hshrinks
              rw [ok_bind]
              simp only
              by_cases hstop : target ≤ e.term
              · refine ⟨_, EntryLoop.stop prev (b :: bs) rest e (List.cons_ne_nil _ _) hentry
                  (decide_eq_true hstop), ?_⟩
                by_cases heq : e.term = target
                · rw [if_pos heq]
                  have hscanned : scanned target [e] = some e := by simp [scanned, heq]
                  exact congrArg Except.ok hscanned.symm
                · rw [if_neg heq, if_pos (lt_of_le_of_ne hstop (Ne.symm heq))]
                  have hscanned : scanned target [e] = none := by simp [scanned, heq]
                  exact congrArg Except.ok hscanned.symm
              · obtain ⟨r, htail, hscan⟩ := @ih e.term rest (by omega)
                refine ⟨_, EntryLoop.next prev (b :: bs) rest e r (List.cons_ne_nil _ _) hentry
                  (decide_eq_false hstop) htail, ?_⟩
                rw [if_neg fun heq => hstop heq.ge, if_neg fun hgt => hstop hgt.le, hscan]
                cases r with
                | error s => rfl
                | ok entries =>
                    -- an entry that lets the loop go on is not the target
                    have hscanned : scanned target (e :: entries) = scanned target entries := by
                      cases entries with
                      | nil => simp [scanned, show e.term ≠ target from fun heq => hstop heq.ge]
                      | cons e' entries => simp [scanned]
                    exact congrArg Except.ok hscanned.symm

/-! ## Opening -/

variable {covered : Bytes} {tier : IndexTier} {entriesBegin tableBegin : Nat}

/-- An anchor in front of the table is read inside the block. -/
theorem anchorTerm_ne_outOfBounds {off : Nat} (hoff : off < tableBegin)
    (htable : tableBegin ≤ covered.length) :
    anchorTerm covered tier tableBegin off ≠ .error .outOfBounds := by
  rw [anchorTerm, subslice, if_neg (by omega), ok_bind]
  exact bind_ne_error (avoids_decodeDictEntry [] tier _) fun r _ => by simp

theorem checkAnchor_ne_outOfBounds (prev : Option Nat) (off : Nat) :
    checkAnchor entriesBegin prev off ≠ .error .outOfBounds := by
  cases prev with
  | none =>
      rw [checkAnchor]
      split <;> simp
  | some p =>
      rw [checkAnchor]
      split <;> simp

theorem avoids_readAnchor (htable : tableBegin ≤ covered.length) (prev : Option Nat) :
    Avoids (readAnchor covered tier entriesBegin tableBegin prev) .outOfBounds := by
  apply avoids_getFixed32.bind
  intro off
  by_cases hoff : off ≥ tableBegin
  · rw [if_pos hoff]
    exact Avoids.throw (by simp)
  · rw [if_neg hoff]
    apply (Avoids.ofResult (checkAnchor_ne_outOfBounds prev off)).bind
    intro u
    apply (Avoids.ofResult (anchorTerm_ne_outOfBounds (Nat.not_le.mp hoff) htable)).bind
    exact fun _ => Avoids.pure _

theorem avoids_readAnchors (htable : tableBegin ≤ covered.length) (n : Nat)
    (prev : Option Nat) :
    Avoids (readAnchors covered tier entriesBegin tableBegin n prev) .outOfBounds := by
  induction n generalizing prev with
  | zero => exact Avoids.pure []
  | succ n ih =>
      exact (avoids_readAnchor htable prev).bind fun a => (ih (some a.1)).bind fun _ =>
        Avoids.pure _

/-- An anchor that is accepted: in front of the table, behind the one before, with its
term. -/
theorem yields_readAnchor (prev : Option Nat) :
    Yields (readAnchor covered tier entriesBegin tableBegin prev) fun a =>
      a.1 < tableBegin ∧ (∀ p ∈ prev, p < a.1) ∧
        anchorTerm covered tier tableBegin a.1 = .ok a.2 := by
  refine (Yields.trivial getFixed32).bind fun off _ => ?_
  refine Yields.ite (fun _ => Yields.throw _) fun hoff => ?_
  have hcheck : Yields (ofResult (checkAnchor entriesBegin prev off)) fun _ =>
      ∀ p ∈ prev, p < off := by
    apply Yields.ofResult
    intro u hu p hp
    rw [Option.mem_def] at hp
    rw [hp, checkAnchor] at hu
    split at hu
    · cases hu
    · omega
  refine hcheck.bind fun u hprev => ?_
  have hterm : Yields (ofResult (anchorTerm covered tier tableBegin off)) fun term =>
      anchorTerm covered tier tableBegin off = .ok term := Yields.ofResult fun _ h => h
  exact hterm.bind fun term hread => Yields.pure ⟨Nat.not_le.mp hoff, hprev, hread⟩

/-- The anchors read ascend and lie in front of the table, each with the term of its entry. -/
theorem yields_readAnchors (n : Nat) (prev : Option Nat) :
    Yields (readAnchors covered tier entriesBegin tableBegin n prev) fun as =>
      as.length = n ∧ (as.map Prod.fst).Pairwise (· < ·) ∧
        ∀ a ∈ as, a.1 < tableBegin ∧ (∀ p ∈ prev, p < a.1) ∧
          anchorTerm covered tier tableBegin a.1 = .ok a.2 := by
  induction n generalizing prev with
  | zero => exact Yields.pure ⟨rfl, List.Pairwise.nil, by simp⟩
  | succ n ih =>
      refine (yields_readAnchor prev).bind fun a ⟨hbelow, hprev, hterm⟩ => ?_
      refine (ih (some a.1)).bind fun rest ⟨hlen, hasc, hrest⟩ => ?_
      refine Yields.pure ⟨by rw [List.length_cons, hlen], ?_, ?_⟩
      · rw [List.map_cons, List.pairwise_cons]
        refine ⟨fun off hoff => ?_, hasc⟩
        obtain ⟨b, hb, rfl⟩ := List.mem_map.mp hoff
        exact (hrest b hb).2.1 a.1 rfl
      · intro b hb
        rcases List.mem_cons.mp hb with rfl | hb
        · exact ⟨hbelow, hprev, hterm⟩
        · obtain ⟨hbelow', hprev', hterm'⟩ := hrest b hb
          exact ⟨hbelow', fun p hp => Nat.lt_trans (hprev p hp) (hprev' a.1 rfl), hterm'⟩

/-- What `open` has checked of an anchor table with these offsets, in a block of the
given length without its footer. -/
structure TableFits (length : Nat) (offsets : List Nat) : Prop where
  room : kNAnchorsBytes + offsets.length * kAnchorOffBytes ≤ length
  ascending : offsets.Pairwise (· < ·)
  below : ∀ off ∈ offsets, off < length - kNAnchorsBytes - offsets.length * kAnchorOffBytes

/-- **The anchor table** of any bytes: it is read inside them, and what is accepted
fits. -/
theorem readAnchorTable_spec (covered : Bytes) (tier : IndexTier) (entriesBegin : Nat) :
    readAnchorTable covered tier entriesBegin ≠ .error .outOfBounds ∧
      ∀ as, readAnchorTable covered tier entriesBegin = .ok as →
        TableFits covered.length (as.map Prod.fst) ∧
          ∀ a ∈ as, anchorTerm covered tier
            (covered.length - kNAnchorsBytes - as.length * kAnchorOffBytes) a.1 = .ok a.2 := by
  rw [readAnchorTable]
  by_cases hshort : covered.length < kNAnchorsBytes
  · rw [if_pos hshort]
    simp
  · rw [if_neg hshort, subslice, if_neg (by omega), ok_bind]
    cases htail : getFixed32.run ((covered.drop (covered.length - kNAnchorsBytes)).take
        kNAnchorsBytes) with
    | error s =>
        have hs : s ≠ .outOfBounds := fun heq => avoids_getFixed32 _ (by rw [htail, heq])
        refine ⟨fun h => hs (Except.error.inj h), fun as h => ?_⟩
        cases h
    | ok r =>
        obtain ⟨nAnchors, rest⟩ := r
        rw [ok_bind]
        simp only
        by_cases hrange : covered.length < kNAnchorsBytes + nAnchors * kAnchorOffBytes ∨
            entriesBegin + nAnchors * kAnchorOffBytes + kNAnchorsBytes > covered.length
        · rw [if_pos hrange]
          simp
        · rw [if_neg hrange, subslice, if_neg (by omega), ok_bind]
          have htable : covered.length - kNAnchorsBytes - nAnchors * kAnchorOffBytes ≤
              covered.length := by omega
          constructor
          · exact bind_ne_error (avoids_readAnchors htable nAnchors none _) fun r _ => by simp
          · intro as h
            cases hrun : (readAnchors covered tier entriesBegin
                (covered.length - kNAnchorsBytes - nAnchors * kAnchorOffBytes) nAnchors
                none).run ((covered.drop (covered.length - kNAnchorsBytes -
                  nAnchors * kAnchorOffBytes)).take (nAnchors * kAnchorOffBytes)) with
            | error s =>
                rw [hrun] at h
                cases h
            | ok r =>
                rw [hrun, ok_bind] at h
                cases h
                obtain ⟨hlen, hasc, hanchor⟩ := yields_readAnchors nAnchors none _ _ _ hrun
                refine ⟨⟨?_, hasc, ?_⟩, ?_⟩
                · rw [List.length_map, hlen]
                  omega
                · intro off hoff
                  obtain ⟨a, ha, rfl⟩ := List.mem_map.mp hoff
                  rw [List.length_map, hlen]
                  exact (hanchor a ha).1
                · intro a ha
                  rw [hlen]
                  exact (hanchor a ha).2.2

theorem avoids_readHeader (hasPositions : Bool) : Avoids (readHeader hasPositions) .outOfBounds := by
  apply avoids_getVarint64.bind
  intro n
  apply avoids_getU8.bind
  intro ver
  apply avoids_getU8.bind
  intro flags
  apply Avoids.ite (Avoids.throw (by simp))
  have hflags : checkFlags flags hasPositions ≠ .error .outOfBounds := by
    rw [checkFlags]
    split <;> simp
  have hprx : Avoids (readPrxBase hasPositions) .outOfBounds :=
    Avoids.ite avoids_getVarint64 (Avoids.pure 0)
  exact (Avoids.ofResult hflags).bind fun _ => avoids_getVarint64.bind fun _ => hprx.bind fun _ =>
    Avoids.pure _

/-- The checksum is compared over the block without its footer. -/
theorem verifyCrc_spec (block : Bytes) :
    verifyCrc block ≠ .error .outOfBounds ∧
      ∀ covered, verifyCrc block = .ok covered →
        ∃ footer, block = covered ++ footer ∧ footer.length = kFooterBytes := by
  rw [verifyCrc]
  by_cases hshort : block.length < kFooterBytes + kNAnchorsBytes
  · rw [if_pos hshort]
    simp
  · rw [if_neg hshort, subslice, if_neg (by omega), ok_bind, subslice, if_neg (by omega), ok_bind]
    cases hfooter : getFixed32.run ((block.drop (block.length - kFooterBytes)).take
        kFooterBytes) with
    | error s =>
        have hs : s ≠ .outOfBounds := fun heq => avoids_getFixed32 _ (by rw [hfooter, heq])
        refine ⟨fun h => hs (Except.error.inj h), fun covered h => ?_⟩
        cases h
    | ok r =>
        rw [ok_bind]
        simp only
        by_cases hcrc : crc32c ((block.drop 0).take (block.length - kFooterBytes)) ≠ r.1
        · rw [if_pos hcrc]
          simp
        · rw [if_neg hcrc]
          refine ⟨by simp, fun covered h => ?_⟩
          cases h
          refine ⟨block.drop (block.length - kFooterBytes), ?_, ?_⟩
          · rw [List.drop_zero, List.take_append_drop]
          · rw [List.length_drop]
            omega

/-- What `open` guarantees of the reader it returns. -/
structure Opened (block : Bytes) (tier : IndexTier) (r : DictBlockReader) : Prop where
  covered : ∃ footer, block = r.block ++ footer ∧ footer.length = kFooterBytes
  tier : r.tier = tier
  table : TableFits r.block.length r.anchorOffsets
  terms : r.anchorTerms.length = r.anchorOffsets.length
  anchors : ∀ a < r.anchorOffsets.length, anchorTerm r.block r.tier
    (r.block.length - kNAnchorsBytes - r.anchorOffsets.length * kAnchorOffBytes)
    (r.anchorOffsets.getD a 0) = .ok (r.anchorTerms.getD a [])
  count : r.nEntries < 2 ^ 32

/-- **Opening any bytes as a block** stays inside them. -/
theorem openBlock_spec (block : Bytes) (tier : IndexTier) (hasPositions : Bool) :
    openBlock block tier hasPositions ≠ .error .outOfBounds ∧
      ∀ r, openBlock block tier hasPositions = .ok r → Opened block tier r := by
  obtain ⟨hcrc, hcovered⟩ := verifyCrc_spec block
  constructor
  · refine bind_ne_error hcrc fun covered _ => ?_
    refine bind_ne_error (avoids_readHeader hasPositions covered) fun r _ => ?_
    refine bind_ne_error (readAnchorTable_spec covered tier _).1 fun as _ => ?_
    simp
  · intro r h
    rw [openBlock] at h
    cases hverify : verifyCrc block with
    | error s =>
        rw [hverify] at h
        cases h
    | ok covered =>
        rw [hverify, ok_bind] at h
        cases hheader : (readHeader hasPositions).run covered with
        | error s =>
            rw [hheader] at h
            cases h
        | ok header =>
            rw [hheader, ok_bind] at h
            simp only at h
            cases htable : readAnchorTable covered tier (covered.length - header.2.length) with
            | error s =>
                rw [htable] at h
                cases h
            | ok as =>
                rw [htable, ok_bind] at h
                cases h
                obtain ⟨hfits, hterms⟩ := (readAnchorTable_spec covered tier _).2 as htable
                refine ⟨hcovered covered hverify, rfl, hfits, by simp, ?_,
                  Nat.mod_lt _ (by decide)⟩
                intro a ha
                simp only [List.length_map] at ha ⊢
                have hentry := hterms as[a] (List.getElem_mem ha)
                simpa only [List.getD_eq_getElem?_getD, List.getElem?_map,
                  List.getElem?_eq_getElem ha, Option.map_some, Option.getD_some] using hentry

/-! ## Segments -/

variable {block : Bytes} {r : DictBlockReader}

/-- **Every segment lies in the block**, between its anchor and the next one or the table;
other segments stand between it and the table. -/
theorem Opened.segment (h : Opened block tier r) {a : Nat} (ha : a < r.anchorOffsets.length) :
    ∃ before seg between table, block = before ++ (seg ++ between) ++ table ∧
      before.length = r.anchorOffsets.getD a 0 ∧
      before.length + seg.length = r.segEnd a ∧
      table.length = kFooterBytes + kNAnchorsBytes + r.anchorOffsets.length * kAnchorOffBytes ∧
      r.segment a = .ok seg ∧
      anchorTerm r.block r.tier
        (r.block.length - kNAnchorsBytes - r.anchorOffsets.length * kAnchorOffBytes)
        (r.anchorOffsets.getD a 0) =
          (decodeDictEntry [] tier).run (seg ++ between) >>= fun e => .ok e.1.term := by
  have hroom := h.table.room
  have hget : ∀ {i : Nat} (hi : i < r.anchorOffsets.length),
      r.anchorOffsets.getD i 0 = r.anchorOffsets[i] := fun hi => by simp [hi]
  have hbegin := h.table.below _ (List.getElem_mem ha)
  have hend : r.anchorOffsets.getD a 0 ≤ r.segEnd a ∧
      r.segEnd a ≤ r.block.length - kNAnchorsBytes - r.anchorOffsets.length * kAnchorOffBytes := by
    rw [hget ha, DictBlockReader.segEnd]
    by_cases hlast : a + 1 = r.anchorOffsets.length
    · rw [if_pos hlast]
      omega
    · have hnext : a + 1 < r.anchorOffsets.length := by omega
      rw [if_neg hlast, hget hnext]
      have hasc := List.pairwise_iff_getElem.mp h.table.ascending a (a + 1) ha hnext
        (Nat.lt_succ_self a)
      have hbelow := h.table.below _ (List.getElem_mem hnext)
      omega
  rw [← hget ha] at hbegin
  obtain ⟨footer, hblock, hfooter⟩ := h.covered
  generalize hoff : r.anchorOffsets.getD a 0 = off at hend hbegin ⊢
  generalize htable : r.block.length - kNAnchorsBytes -
    r.anchorOffsets.length * kAnchorOffBytes = tableBegin at hend hbegin ⊢
  have hsplit : (r.block.drop off).take (r.segEnd a - off) ++
      (r.block.drop (r.segEnd a)).take (tableBegin - r.segEnd a) =
        (r.block.drop off).take (tableBegin - off) := by
    rw [show r.block.drop (r.segEnd a) = (r.block.drop off).drop (r.segEnd a - off) by
        rw [List.drop_drop, Nat.add_sub_cancel' hend.1],
      show tableBegin - off = r.segEnd a - off + (tableBegin - r.segEnd a) by omega,
      List.take_add]
  refine ⟨r.block.take off, (r.block.drop off).take (r.segEnd a - off),
    (r.block.drop (r.segEnd a)).take (tableBegin - r.segEnd a),
    r.block.drop tableBegin ++ footer, ?_, ?_, ?_, ?_, ?_, ?_⟩
  · rw [hsplit, ← List.append_assoc, List.append_assoc (List.take _ r.block),
      show r.block.drop tableBegin = (r.block.drop off).drop (tableBegin - off) by
        rw [List.drop_drop, Nat.add_sub_cancel' hbegin.le],
      List.take_append_drop, List.take_append_drop]
    exact hblock
  · rw [List.length_take]
    omega
  · rw [List.length_take, List.length_take, List.length_drop]
    omega
  · rw [List.length_append, List.length_drop, hfooter]
    omega
  · rw [DictBlockReader.segment, hoff, if_neg (by omega), subslice, if_neg (by omega)]
  · rw [anchorTerm, subslice, if_neg (by omega), ok_bind, hsplit, h.tier]

/-- The loop over a segment stays inside it. -/
theorem EntryLoop.ne_outOfBounds {stop : DictEntry → Bool} {prev bs : Bytes}
    {res : Result (List DictEntry)} (h : EntryLoop tier stop prev bs res) :
    res ≠ .error .outOfBounds := by
  induction h with
  | eof => simp
  | error prev bs s more entry =>
      intro heq
      apply avoids_decodeDictEntry prev tier bs
      rw [entry, Except.error.inj heq]
  | stop => simp
  | next prev bs rest e r more entry goes tail ih =>
      intro heq
      cases r with
      | error s => exact ih heq
      | ok entries => cases heq

/-- A result of a run with the input left dropped. -/
theorem bind_fst_eq_map {α : Type} (r : Result (α × Bytes)) :
    (r >>= fun x => .ok x.1) = r.map Prod.fst := by
  cases r <;> rfl

/-- `decode_segment` is the loop without a stop. -/
theorem Opened.decodeSegment (h : Opened block tier r) {a : Nat} {seg : Bytes}
    (hseg : r.segment a = .ok seg) :
    EntryLoop tier (fun _ => false) [] seg (r.decodeSegment a) := by
  have hloop := @decodeEntries_loop tier seg.length [] seg (Nat.le_refl _)
  rw [← bind_fst_eq_map] at hloop
  rw [DictBlockReader.decodeSegment, hseg, ok_bind, h.tier]
  exact hloop

/-- The scan is the loop that stops at the target. -/
theorem Opened.scanFromAnchor (h : Opened block tier r) {a : Nat} {seg : Bytes}
    (hseg : r.segment a = .ok seg) (target : Bytes) :
    ∃ res, EntryLoop tier (fun e => decide (target ≤ e.term)) [] seg res ∧
      r.scanFromAnchor a target = res.map (scanned target) := by
  obtain ⟨res, hloop, hscan⟩ := @scanEntries_loop tier seg.length [] seg target (Nat.le_refl _)
  rw [← bind_fst_eq_map] at hscan
  refine ⟨res, hloop, ?_⟩
  rw [DictBlockReader.scanFromAnchor, hseg, ok_bind, h.tier]
  exact hscan

/-- The anchor search looks at anchors only, and returns one. -/
theorem Opened.locateAnchor (h : Opened block tier r) {target : Bytes} {a : Nat}
    (hloc : r.locateAnchor target = some a) :
    a < r.anchorOffsets.length ∧
      BisectRun (leAt r.anchorTerms target) r.anchorTerms.length 0 r.anchorTerms.length a := by
  have hrun := @bisect_run (leAt r.anchorTerms target) r.anchorTerms.length r.anchorTerms.length 0
    r.anchorTerms.length (Nat.sub_le _ _) (Nat.le_refl _)
  unfold DictBlockReader.locateAnchor at hloc
  cases hhead : r.anchorTerms.head? with
  | none =>
      rw [hhead] at hloc
      cases hloc
  | some first =>
      rw [hhead] at hloc
      by_cases hlt : target < first
      · simp only [if_pos hlt] at hloc
        cases hloc
      · simp only [if_neg hlt, Option.some.injEq] at hloc
        have hpos : 0 < r.anchorTerms.length := by
          rw [List.length_pos_iff]
          rintro hnil
          rw [hnil] at hhead
          cases hhead
        rw [hloc] at hrun
        rw [← h.terms]
        exact ⟨hrun.lt hpos, hrun⟩

/-- Whatever an opened block finds, its terms in whatever order, is stored in it. -/
theorem findTerm_stored {b : DictBlockBuilder} (h : b.BlockOk) {target : Bytes} {hit : DictEntry}
    (hfind : b.readerOf.findTerm target = .ok (some hit)) :
    hit ∈ b.entries.map (DictEntry.stored b.tier) := by
  have hopened := (openBlock_spec b.finish b.tier b.hasPositions).2 _
    (DictBlockBuilder.openBlock_finish h)
  rw [DictBlockReader.findTerm] at hfind
  cases hloc : b.readerOf.locateAnchor target with
  | none =>
      rw [hloc] at hfind
      cases hfind
  | some a =>
      have ha : a < b.segments.length := by
        rw [← DictBlockBuilder.length_anchorOffsets]
        exact (hopened.locateAnchor hloc).1
      have hseg := List.getElem?_eq_getElem ha
      have hmem := List.mem_of_getElem? hseg
      rw [hloc] at hfind
      simp only [DictBlockReader.scanFromAnchor] at hfind
      rw [DictBlockBuilder.segment_readerOf hseg, ok_bind] at hfind
      obtain ⟨⟨found, rest⟩, hscan, hfound⟩ := bind_eq_ok hfind
      cases hfound
      have hin := scanEntries_stored
        (fun e he => h.entries e (Lib.Chunks.mem_of_mem_chunks hmem he))
        (DictBlockBuilder.segmentBytes_lt h hmem) hscan
      exact List.map_subset _ (fun e he => Lib.Chunks.mem_of_mem_chunks hmem he) hin

theorem mapM_ne_error {α β : Type} {f : α → Result β} {xs : List α} {s : Status}
    (h : ∀ x ∈ xs, f x ≠ .error s) : xs.mapM f ≠ .error s := by
  induction xs with
  | nil => simp [pure, Except.pure]
  | cons x xs ih =>
      rw [List.mapM_cons]
      refine bind_ne_error (h x List.mem_cons_self) fun y _ => ?_
      refine bind_ne_error (ih fun z hz => h z (List.mem_cons_of_mem x hz)) fun ys _ => ?_
      simp [pure, Except.pure]

/-- Every segment of an opened block is decoded inside it. -/
theorem Opened.decodeAll_ne_outOfBounds (h : Opened block tier r) :
    r.decodeAll ≠ .error .outOfBounds := by
  refine bind_ne_error (mapM_ne_error fun a ha => ?_) fun segs _ => ?_
  · obtain ⟨-, seg, -, -, -, -, -, -, hseg, -⟩ := h.segment (List.mem_range.mp ha)
    exact (h.decodeSegment hseg).ne_outOfBounds
  · split <;> simp

/-- A lookup stays inside an opened block. -/
theorem Opened.findTerm_ne_outOfBounds (h : Opened block tier r) (target : Bytes) :
    r.findTerm target ≠ .error .outOfBounds := by
  rw [DictBlockReader.findTerm]
  cases hloc : r.locateAnchor target with
  | none => simp
  | some a =>
      obtain ⟨-, seg, -, -, -, -, -, -, hseg, -⟩ := h.segment (h.locateAnchor hloc).1
      obtain ⟨res, hloop, hscan⟩ := h.scanFromAnchor hseg target
      have hne := hloop.ne_outOfBounds
      simp only [hscan]
      cases res with
      | error s => exact fun heq => hne (congrArg Except.error (Except.error.inj heq))
      | ok entries => simp [Except.map]

end Snii.Format.DictBlock
