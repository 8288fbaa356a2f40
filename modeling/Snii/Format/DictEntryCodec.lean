import Snii.Format.DictEntry

/-!
# What the dictionary entry codec gives back

A well-formed entry reads back as its stored part exactly when it is `Storable`
(`decode_stored_iff`): the reader appends as many bytes to the shared prefix as the 32-bit
suffix length says (`readTermKey_length`), and it rejects the mode bit of a compressed freq
region in a tier without freqs (`readBody_rejected`).  Skipping an entry ends behind it in
every case.
-/

namespace Snii.Format.Dict

open Snii.Lib.ByteReader Snii.Common
open Snii.Encoding.ByteSource
open Snii.Format.FrqPod (FrqRegionMeta)
open Snii.Format.FrqPrelude (bit hasBit bits_decode)

variable {tier : IndexTier} {e : DictEntry} {prev : Bytes}

/-! ## The term -/

/-- What is read behind the term leaves the term alone. -/
theorem yields_readLocator (tier : IndexTier) (e : DictEntry) :
    Yields (readLocator tier e) (·.term = e.term) := by
  have hpod : Yields (readPodRef tier e) (·.term = e.term) := by
    refine (Yields.trivial _).bind fun off _ => (Yields.trivial _).bind fun len _ => ?_
    apply Yields.ite
    · intro _
      exact (Yields.trivial _).bind fun prelude _ => (Yields.trivial _).bind fun prx _ =>
        Yields.pure rfl
    · intro _
      refine (Yields.trivial _).bind fun docs _ => ?_
      apply Yields.ite
      · exact fun _ => Yields.throw _
      · exact fun _ => (Yields.trivial _).bind fun m _ => (Yields.trivial _).bind fun prx _ =>
          Yields.pure rfl
  have hinline : Yields (readInline tier e) (·.term = e.term) := by
    refine (Yields.trivial _).bind fun frq _ => (Yields.trivial _).bind fun dd _ => ?_
    apply Yields.ite
    · exact fun _ => Yields.throw _
    · exact fun _ => (Yields.trivial _).bind fun m _ => (Yields.trivial _).bind fun prx _ =>
        Yields.pure rfl
  exact Yields.ite (fun _ => hinline) (fun _ => hpod)

/-- The term is as long as the two stored lengths together. -/
theorem readTermKey_length {term more t mid : Bytes}
    (h : (readTermKey prev).run (writeTermKey term prev ++ more) = .ok (t, mid)) :
    t.length = commonPrefixLen term prev +
      (term.drop (commonPrefixLen term prev)).length % 2 ^ 32 := by
  have hpre := (take_commonPrefixLen term prev).2.2
  have hmod : (term.drop (commonPrefixLen term prev)).length % 2 ^ 32 < 2 ^ 32 :=
    Nat.mod_lt _ (Nat.two_pow_pos 32)
  rw [readTermKey, readFrontCoded, writeTermKey, List.append_assoc, List.append_assoc,
    (reads_getVarint32 (commonPrefixLen_lt term prev)).run_bind,
    (reads_getVarint32 hmod).run_bind, if_neg (by omega)] at h
  obtain ⟨suffix, rest, hget, hpure⟩ := run_bind_eq_ok.mp h
  obtain ⟨_, hlen⟩ := getBytes_inv hget
  cases hpure
  rw [List.length_append, List.length_take, hlen, Nat.min_eq_left hpre]

theorem readBody_length {more rest : Bytes} {e' : DictEntry}
    (h : (readBody prev tier).run (writeBody e prev tier ++ more) = .ok (e', rest)) :
    e'.term.length = commonPrefixLen e.term prev +
      (e.term.drop (commonPrefixLen e.term prev)).length % 2 ^ 32 := by
  rw [readBody] at h
  obtain ⟨t, mid, hkey, hrest⟩ := run_bind_eq_ok.mp h
  have hterm : e'.term = t := by
    refine Yields.bind (Q := fun x => x.term = t) (Yields.trivial getU8) (fun flags _ => ?_) mid e'
      rest hrest
    exact (Yields.trivial _).bind fun stats _ => yields_readLocator tier _
  rw [hterm]
  rw [writeBody, List.append_assoc, List.append_assoc, List.append_assoc] at hkey
  exact readTermKey_length hkey

/-! ## The mode bit of the freq region -/

/-- The status of the mode bit without a freq region. -/
def freqModeStatus : Status := .corruption "dict_entry: freq mode set without freq tier"

theorem readRegionMeta_rejected (h : WellFormed e) (htier : tierHasStats tier = false)
    (hzstd : e.freqMeta.zstd = true) (hasCrc : Bool) (ddLen freqLen : Nat) (more : Bytes) :
    (readRegionMeta tier hasCrc ddLen freqLen).run (writeRegionMeta e tier hasCrc ++ more) =
      .error freqModeStatus := by
  obtain ⟨hdd, hfreq, hsmall⟩ := bits_decode e.ddMeta.zstd e.freqMeta.zstd
  have hmode : packWinMode e < 256 := Nat.lt_trans hsmall (by decide)
  rw [readRegionMeta, writeRegionMeta, List.append_assoc, List.append_assoc,
    (reads_getU8 hmode).run_bind, if_neg (by rw [packWinMode]; omega), packWinMode, hdd, hfreq,
    (reads_region h.ddMeta.1 h.ddMeta.2 hasCrc ddLen).run_bind, if_neg (by rw [htier]; simp),
    if_pos hzstd]
  rfl

theorem readLocator_rejected (h : WellFormed e) (htier : tierHasStats tier = false)
    (hmeta : HasRegionMeta e) (hzstd : e.freqMeta.zstd = true) (more : Bytes) :
    (readLocator tier (e.head tier)).run (writeLocator e tier ++ more) =
      .error freqModeStatus := by
  have hreject := fun hasCrc ddLen freqLen more =>
    readRegionMeta_rejected h htier hzstd hasCrc ddLen freqLen more
  cases hkind : e.kind with
  | inline =>
      have hdd := h.inlineDd hkind
      have hfrq := h.inlineFrq
      rw [readLocator, if_pos (show (e.head tier).kind = .inline from hkind), writeLocator,
        if_pos hkind, readInline, writeInline]
      simp only [List.append_assoc]
      rw [(reads_blob hfrq).run_bind, (reads_getVarint64 (by omega)).run_bind, if_neg (by omega),
        StateT.run_bind, hreject]
      rfl
  | podRef =>
      obtain ⟨hoff, hlen, -⟩ := h.frq
      have henc : e.enc = .slim := by
        apply hmeta.resolve_left
        rw [hkind]
        decide
      have hdocs := h.docs hkind henc
      have hinline : ¬ (e.head tier).kind = .inline := by
        rw [DictEntry.head, hkind]
        decide
      have hwindowed : ¬ (e.head tier).enc = .windowed := by
        rw [DictEntry.head, henc]
        decide
      rw [readLocator, if_neg hinline, writeLocator, if_neg (by rw [hkind]; decide), readPodRef,
        writePodRef, if_neg (by rw [henc]; decide)]
      simp only [List.append_assoc]
      rw [(reads_getVarint64 hoff).run_bind, (reads_getVarint64 hlen).run_bind, if_neg hwindowed,
        (reads_getVarint64 (by omega)).run_bind, if_neg (by omega), StateT.run_bind, hreject]
      rfl

/-- **The mode bit is rejected** where the tier has no freqs. -/
theorem readBody_rejected (h : WellFormed e)
    (hsuffix : (e.term.drop (commonPrefixLen e.term prev)).length < 2 ^ 32)
    (htier : tierHasStats tier = false) (hmeta : HasRegionMeta e) (hzstd : e.freqMeta.zstd = true)
    (more : Bytes) :
    (readBody prev tier).run (writeBody e prev tier ++ more) = .error freqModeStatus := by
  rw [run_readBody h hsuffix]
  exact readLocator_rejected h htier hmeta hzstd more

/-! ## The round trip -/

/-- Decoding reads the body behind its length, and has to end where it ends. -/
theorem decode_eq_ok (hlen : (writeBody e prev tier).length < 2 ^ 64) {rest rest' : Bytes}
    {e' : DictEntry} (h : (decodeDictEntry prev tier).run (encodeDictEntry e prev tier ++ rest) =
      .ok (e', rest')) :
    (readBody prev tier).run (writeBody e prev tier ++ rest) = .ok (e', rest') := by
  rw [decodeDictEntry, encodeDictEntry, StateT.run_bind, readEntryLen_run hlen, ok_bind] at h
  obtain ⟨r, mid, hconsumed, hcheck⟩ := run_bind_eq_ok.mp h
  obtain ⟨hrun, _⟩ := consumed_eq_ok hconsumed
  dsimp only at hcheck
  split at hcheck
  · cases hcheck
  · cases hcheck
    exact hrun

/-- **Exactly the storable entries come back.** -/
theorem decode_stored_iff (h : WellFormed e) (hlen : (writeBody e prev tier).length < 2 ^ 64)
    (rest : Bytes) :
    (decodeDictEntry prev tier).run (encodeDictEntry e prev tier ++ rest) =
      .ok (e.stored tier, rest) ↔ Storable tier prev e := by
  constructor
  · intro hdecode
    have hbody := decode_eq_ok hlen hdecode
    have hsuffix : (e.term.drop (commonPrefixLen e.term prev)).length < 2 ^ 32 := by
      have hterm := readBody_length hbody
      have hpre := (take_commonPrefixLen e.term prev).2.1
      rw [DictEntry.stored_term, List.length_drop] at hterm
      rw [List.length_drop]
      omega
    refine ⟨hsuffix, ?_⟩
    intro htier hmeta
    by_contra hzstd
    rw [readBody_rejected h hsuffix htier hmeta (by simpa using hzstd)] at hbody
    cases hbody
  · intro hs
    exact reads_storable h hs hlen rest

/-- **The entry codec**: a well-formed entry comes back up to what its kind and tier do not
store, with exactly its bytes read, if and only if it is storable behind the previous term;
skipping it ends at the same place. -/
theorem dictEntry_codec (h : WellFormed e) (hlen : (writeBody e prev tier).length < 2 ^ 64)
    (rest : Bytes) :
    ((decodeDictEntry prev tier).run (encodeDictEntry e prev tier ++ rest) =
        .ok (e.stored tier, rest) ↔ Storable tier prev e) ∧
      skipDictEntry.run (encodeDictEntry e prev tier ++ rest) = .ok ((), rest) :=
  ⟨decode_stored_iff h hlen rest, reads_skipDictEntry hlen rest⟩

/-- An inline entry behind a term with which it shares two bytes. -/
def sharedEntry : DictEntry :=
  { term := [97, 98, 99], kind := .inline, df := 2, ttfDelta := 3, maxFreq := 2
    ddMeta := { uncompLen := 2 }, freqMeta := { uncompLen := 1, zstd := true }
    inlineDdDiskLen := 2, frqBytes := [1, 2, 3], prxBytes := [9] }

theorem sharedEntry_wellFormed : WellFormed sharedEntry := by
  constructor <;> decide

theorem dictEntry_codec_shared :
    commonPrefixLen sharedEntry.term [97, 98, 7] = 2 ∧
      (decodeDictEntry [97, 98, 7] .t2).run (encodeDictEntry sharedEntry [97, 98, 7] .t2 ++ [5]) =
        .ok (sharedEntry.stored .t2, [5]) ∧
      skipDictEntry.run (encodeDictEntry sharedEntry [97, 98, 7] .t2 ++ [5]) = .ok ((), [5]) := by
  have hstored : Storable .t2 [97, 98, 7] sharedEntry :=
    ⟨by decide, fun htier => absurd htier (by decide)⟩
  have h := @dictEntry_codec .t2 sharedEntry [97, 98, 7] sharedEntry_wellFormed (by decide) [5]
  exact ⟨by decide, h.1.mpr hstored, h.2⟩

/-! ## Entries that do not come back -/

/-- A docs-only entry whose freq region is marked as compressed. -/
def markedEntry : DictEntry := { term := [97], df := 1, freqMeta := { zstd := true } }

/-- An entry that is nothing but its term. -/
def termEntry (term : Bytes) : DictEntry := { term := term, df := 1 }

theorem termEntry_wellFormed (term : Bytes) : WellFormed (termEntry term) := by
  constructor <;> simp [termEntry]

theorem length_termEntry_le (term : Bytes) :
    (writeBody (termEntry term) [] .t2).length ≤ term.length + 200 := by
  have hpre := length_putVarint32_le (commonPrefixLen term [])
  have hlen := length_putVarint32_le ((term.drop (commonPrefixLen term [])).length % 2 ^ 32)
  have hrest : (writeStats (termEntry term) .t2 ++ writeLocator (termEntry term) .t2).length =
      (writeStats (termEntry []) .t2 ++ writeLocator (termEntry []) .t2).length := rfl
  have hsmall :
      (writeStats (termEntry []) .t2 ++ writeLocator (termEntry []) .t2).length ≤ 100 := by decide
  rw [List.length_append] at hrest
  rw [writeBody, ← writeLocator, writeTermKey]
  simp only [List.length_append, List.length_drop, length_putU8] at hpre hlen hrest hsmall ⊢
  have hterm : (termEntry term).term = term := rfl
  rw [hterm]
  omega

/-- A term of 2^32 bytes has a suffix length of 0. -/
theorem longTerm_lost {term : Bytes} (h : term.length = 2 ^ 32) (rest : Bytes) :
    (decodeDictEntry [] .t2).run (encodeDictEntry (termEntry term) [] .t2 ++ rest) ≠
      .ok ((termEntry term).stored .t2, rest) := by
  intro hdecode
  have hlen : (writeBody (termEntry term) [] .t2).length < 2 ^ 64 := by
    have hle := length_termEntry_le term
    omega
  have hsuffix := ((decode_stored_iff (termEntry_wellFormed term) hlen rest).mp hdecode).suffix
  have hpre := (take_commonPrefixLen term []).2.2
  rw [List.length_drop] at hsuffix
  have hterm : (termEntry term).term = term := rfl
  rw [hterm, h] at hsuffix
  simp only [List.length_nil] at hpre
  omega

/-- Two well-formed entries that do not come back: a docs-only entry marked as having a
compressed freq region, and an entry whose term is 2^32 zeros. -/
theorem dictEntry_codec_fails :
    (WellFormed markedEntry ∧
      (decodeDictEntry [] .t1).run (encodeDictEntry markedEntry [] .t1) =
        .error (.corruption "dict_entry: freq mode set without freq tier")) ∧
      WellFormed (termEntry (List.replicate (2 ^ 32) 0)) ∧
      (decodeDictEntry [] .t2).run
          (encodeDictEntry (termEntry (List.replicate (2 ^ 32) 0)) [] .t2 ++ []) ≠
        .ok ((termEntry (List.replicate (2 ^ 32) 0)).stored .t2, []) := by
  refine ⟨⟨?_, rfl⟩, termEntry_wellFormed _, longTerm_lost List.length_replicate []⟩
  constructor <;> decide

end Snii.Format.Dict
