import Cppnet.Http.Decode

/-!
# The numbers of messages

The version of a message and the length of its body are read by `std::from_chars`, which also says where the digits
end. This is looked at nowhere, so that a number may have anything behind it: `HTTP/1.1x` is a version, and `5, 6` is
a length.

The numbers that are taken for good are those a text starts with (`StartsNumber`). They are exactly the numerals if
and only if every text that starts with one is one (`parseHttpVersion_exact_iff`, `getContentLength_exact_iff`); for
the length, it has to be the only value as well.
-/

namespace Cppnet

/-- The text starts with the digits of a number of `w` bits. -/
structure StartsNumber (w : ℕ) (s : Bytes) : Prop where
  digits_ne_nil : digits 10 s ≠ []
  lt : numeralValue 10 (digits 10 s) < 2 ^ w

/-- There are digits only. -/
def AllDigits (s : Bytes) : Prop := ∀ c ∈ s, (digit 10 c).isSome

instance (s : Bytes) : Decidable (AllDigits s) := inferInstanceAs (Decidable (∀ c ∈ s, _))

section Numbers

variable {w : ℕ} {s : Bytes}

/-- What `from_chars` returns. -/
theorem fromChars_eq_ok_iff {n : ℕ} :
    fromChars w 10 s = .ok n ↔ StartsNumber w s ∧ n = numeralValue 10 (digits 10 s) := by
  rw [fromChars]
  constructor
  · intro h
    split_ifs at h with hnil hlt
    exact ⟨⟨hnil, hlt⟩, (Except.ok.inj h).symm⟩
  · rintro ⟨⟨hnil, hlt⟩, rfl⟩
    rw [if_neg hnil, if_pos hlt]

theorem StartsNumber.isNumeral (h : StartsNumber w s) (hs : AllDigits s) : IsNumeral s := by
  refine ⟨fun hnil => h.digits_ne_nil ?_, hs⟩
  rw [hnil]
  rfl

theorem IsNumeral.startsNumber (h : IsNumeral s) (hlt : numeralValue 10 (digits 10 s) < 2 ^ w) :
    StartsNumber w s :=
  ⟨Cppnet.digits_ne_nil h, hlt⟩

end Numbers

namespace Http

open Lib Io Util

/-! ## Versions -/

/-- The text of a version: `HTTP/`, and two numerals with a point between them. -/
def IsVersion (s : Bytes) (v : ProtocolVersion) : Prop :=
  ∃ major minor, s = sv "HTTP/" ++ (major ++ ch '.' :: minor) ∧ IsNumber major ∧ IsNumber minor ∧
    v = numeralVersion major minor

section Versions

variable {s major minor : Bytes} {v : ProtocolVersion}

theorem versionNumber_eq_ok_iff {n : UInt32} :
    versionNumber s = .ok n ↔ StartsNumber 32 s ∧ n = UInt32.ofNat (numeralValue 10 (digits 10 s)) := by
  rw [versionNumber]
  rcases hs : fromChars 32 10 s with err | value
  · refine iff_of_false (by rintro ⟨⟩) fun h => ?_
    cases hs.symm.trans (fromChars_eq_ok_iff.2 ⟨h.1, rfl⟩)
  · obtain ⟨h, rfl⟩ := fromChars_eq_ok_iff.1 hs
    exact ⟨fun hn => ⟨h, (Except.ok.inj hn).symm⟩, fun hn => congrArg Except.ok hn.2.symm⟩

/-- What `parse_http_version` takes for a version. -/
theorem parseHttpVersion_eq_ok_iff :
    parseHttpVersion s = .ok v ↔ ∃ major minor, s = sv "HTTP/" ++ (major ++ ch '.' :: minor) ∧ ch '.' ∉ major ∧
      StartsNumber 32 major ∧ StartsNumber 32 minor ∧ v = numeralVersion major minor := by
  constructor
  · intro h
    rw [parseHttpVersion] at h
    split_ifs at h with hprefix
    obtain ⟨t, rfl⟩ := hprefix
    rw [List.drop_left] at h
    dsimp only at h
    rcases find_zero_cases t (ch '.') with ⟨-, hfind⟩ | ⟨major, minor, rfl, hmajor, hfind⟩
    · rw [hfind] at h
      cases h
    · rw [hfind] at h
      dsimp only at h
      rw [List.take_left, drop_append_cons] at h
      rcases hn : versionNumber major with _ | n
      · rw [hn] at h
        cases h
      rcases hm : versionNumber minor with _ | m
      · rw [hn, hm] at h
        cases h
      rw [hn, hm] at h
      obtain ⟨hstarts, rfl⟩ := versionNumber_eq_ok_iff.1 hn
      obtain ⟨hstarts', rfl⟩ := versionNumber_eq_ok_iff.1 hm
      exact ⟨major, minor, rfl, hmajor, hstarts, hstarts', (Except.ok.inj h).symm⟩
  · rintro ⟨major, minor, rfl, hmajor, hstarts, hstarts', rfl⟩
    rw [parseHttpVersion, if_neg (not_not.2 (List.prefix_append _ _)), List.drop_left]
    dsimp only
    rw [find_zero_eq_some _ hmajor]
    dsimp only
    rw [List.take_left, drop_append_cons, versionNumber_eq_ok_iff.2 ⟨hstarts, rfl⟩,
      versionNumber_eq_ok_iff.2 ⟨hstarts', rfl⟩]
    rfl

theorem IsVersion.parse (h : IsVersion s v) : parseHttpVersion s = .ok v := by
  obtain ⟨major, minor, rfl, hmajor, hminor, rfl⟩ := h
  exact parseHttpVersion_eq_ok_iff.2 ⟨major, minor, rfl, hmajor.isNumeral.not_mem (by decide),
    hmajor.isNumeral.startsNumber hmajor.lt, hminor.isNumeral.startsNumber hminor.lt, rfl⟩

/-- Wherever two numbers are found, there is nothing but digits. -/
def VersionDigits (s : Bytes) : Prop :=
  ∀ major minor, s = sv "HTTP/" ++ (major ++ ch '.' :: minor) → ch '.' ∉ major →
    StartsNumber 32 major → StartsNumber 32 minor → AllDigits major ∧ AllDigits minor

/-- Versions are taken for what they are, if and only if nothing but digits is where their numbers are. -/
theorem forall_parseHttpVersion_iff :
    (∀ v, parseHttpVersion s = .ok v ↔ IsVersion s v) ↔ VersionDigits s := by
  constructor
  · intro h major minor hs hmajor hstarts hstarts'
    have hparse := parseHttpVersion_eq_ok_iff.2 ⟨major, minor, hs, hmajor, hstarts, hstarts', rfl⟩
    obtain ⟨major', minor', hs', hnumber, hnumber', -⟩ := (h _).1 hparse
    -- The text is split at its first point in one way.
    have htext := List.append_cancel_left (hs.symm.trans hs')
    have hmajor' := eq_of_append_cons_eq htext hmajor (hnumber.isNumeral.not_mem (by decide))
    subst hmajor'
    obtain rfl : minor = minor' := by simpa using htext
    exact ⟨hnumber.isNumeral.2, hnumber'.isNumeral.2⟩
  · intro h v
    refine ⟨fun hparse => ?_, IsVersion.parse⟩
    obtain ⟨major, minor, hs, hmajor, hstarts, hstarts', rfl⟩ := parseHttpVersion_eq_ok_iff.1 hparse
    obtain ⟨hdigits, hdigits'⟩ := h major minor hs hmajor hstarts hstarts'
    exact ⟨major, minor, hs, ⟨hstarts.isNumeral hdigits, hstarts.lt⟩, ⟨hstarts'.isNumeral hdigits', hstarts'.lt⟩, rfl⟩

variable {σ : Type*} [Reader σ Byte ErrorCondition] [LawfulReader σ] [PromptReader σ]

/-- A request with something else in place of a version. -/
theorem requestDecode_error {r : BufferedReader σ} (hr : r.Ready) {method target : Bytes}
    (hmethod : ch ' ' ∉ method) (htarget : ch ' ' ∉ target) (huri : (requestUri target).isSome)
    (hline : (cutLine crlf (Reader.content r)).1 = method ++ ch ' ' :: (target ++ ch ' ' :: s))
    (hs : ∀ v, parseHttpVersion s ≠ .ok v) (maxHeaderBytes : ℕ) :
    ∃ err conn, requestDecode r maxHeaderBytes = some (.error (err, conn)) := by
  obtain ⟨err, herr⟩ : ∃ err, requestLine (cutLine crlf (Reader.content r)).1 = some (.error err) := by
    rw [hline, requestLine_split hmethod htarget]
    split_ifs
    · exact ⟨_, rfl⟩
    · obtain ⟨uri, huri⟩ := Option.isSome_iff_exists.1 huri
      rcases hversion : parseHttpVersion s with err | v
      · rw [huri]
        exact ⟨err, rfl⟩
      · exact absurd hversion (hs v)
  exact ⟨err, decodeWith_error requestLine completeRequest maxHeaderBytes hr herr⟩

end Versions

/-- A text is taken for the version it is, and only then, and a request with anything else in its place is rejected,
    if and only if there are only digits wherever two numbers are found in the text. -/
theorem parseHttpVersion_exact_iff {σ : Type*} [Reader σ Byte ErrorCondition] [LawfulReader σ] [PromptReader σ]
    (s : Bytes) :
    ((∀ v, parseHttpVersion s = .ok v ↔ IsVersion s v) ∧
      ∀ (r : BufferedReader σ) (method target : Bytes) (maxHeaderBytes : ℕ), r.Ready → ch ' ' ∉ method →
        ch ' ' ∉ target → (requestUri target).isSome →
        (cutLine crlf (Reader.content r)).1 = method ++ ch ' ' :: (target ++ ch ' ' :: s) →
        (¬∃ v, IsVersion s v) → ∃ err conn, requestDecode r maxHeaderBytes = some (.error (err, conn))) ↔
      VersionDigits s := by
  refine ⟨fun h => forall_parseHttpVersion_iff.1 h.1, fun h => ?_⟩
  have hexact := forall_parseHttpVersion_iff.2 h
  refine ⟨hexact, fun r method target maxHeaderBytes hr hmethod htarget huri hline hs => ?_⟩
  exact requestDecode_error hr hmethod htarget huri hline (fun v hv => hs ⟨v, (hexact v).1 hv⟩) maxHeaderBytes

/-- The text `HTTP/1.1` has nothing but digits where its numbers are. -/
theorem parseHttpVersion_exact_one :
    VersionDigits (sv "HTTP/1.1") ∧ ∀ v, parseHttpVersion (sv "HTTP/1.1") = .ok v ↔ IsVersion (sv "HTTP/1.1") v := by
  have hdigits : VersionDigits (sv "HTTP/1.1") := by
    intro major minor hs hmajor _ _
    have htext : sv "1" ++ ch '.' :: sv "1" = major ++ ch '.' :: minor :=
      List.append_cancel_left (show sv "HTTP/" ++ _ = sv "HTTP/" ++ _ from hs)
    obtain rfl := eq_of_append_cons_eq htext (by decide) hmajor
    obtain rfl : sv "1" = minor := by simpa using htext
    decide
  exact ⟨hdigits, ((parseHttpVersion_exact_iff (σ := Source) _).2 hdigits).1⟩

/-- A letter behind the version is not looked at. -/
theorem parseHttpVersion_letter :
    ¬∀ s v, parseHttpVersion s = .ok v ↔ IsVersion s v := by
  intro h
  obtain ⟨major, minor, hs, hmajor, hminor, -⟩ := (h (sv "HTTP/1.1x") ⟨1, 1⟩).1 (by decide)
  have htext : sv "1" ++ ch '.' :: sv "1x" = major ++ ch '.' :: minor :=
    List.append_cancel_left (show sv "HTTP/" ++ _ = sv "HTTP/" ++ _ from hs)
  obtain rfl := eq_of_append_cons_eq htext (by decide) (hmajor.isNumeral.not_mem (by decide))
  obtain rfl : sv "1x" = minor := by simpa using htext
  exact absurd hminor.isNumeral (by decide)

/-! ## Lengths -/

namespace Headers

/-- What `get_content_length` takes for a length. -/
theorem getContentLength_eq_some_iff {headers : Headers} {n : ℕ} :
    headers.getContentLength = some n ↔ ∃ s vals, headers.getAll (sv "Content-Length") = some (s :: vals) ∧
      StartsNumber 64 s ∧ n = numeralValue 10 (digits 10 s) := by
  rw [getContentLength, get, getAll]
  rcases headers.find? (sv "Content-Length") with _ | _ | ⟨s, vals⟩
  · simp
  · simp
  · have hok : (fromChars 64 10 s).toOption = some n ↔ fromChars 64 10 s = .ok n := by
      rcases fromChars 64 10 s with _ | m <;> simp [Except.toOption]
    simp only [Option.bind_some, List.head?_cons, hok, fromChars_eq_ok_iff, Option.some_inj, List.cons.injEq]
    constructor
    · intro h
      exact ⟨s, vals, ⟨rfl, rfl⟩, h⟩
    · rintro ⟨_, _, ⟨rfl, rfl⟩, h⟩
      exact h

/-- The first value of the length, if it starts with a number, is a numeral, and the only value. -/
def OneLength (headers : Headers) : Prop :=
  ∀ s vals, headers.getAll (sv "Content-Length") = some (s :: vals) → StartsNumber 64 s →
    vals = [] ∧ AllDigits s

/-- The length is the value of the only numeral of its header, and there is none otherwise, if and only if the first
    value of the header is no number at all, or else a numeral and the only value. -/
theorem getContentLength_exact_iff (headers : Headers) :
    (∀ n, headers.getContentLength = some n ↔ ∃ s, headers.getAll (sv "Content-Length") = some [s] ∧ IsNumeral s ∧
      numeralValue 10 (digits 10 s) = n ∧ n < 2 ^ 64) ↔ headers.OneLength := by
  constructor
  · intro h s vals hall hstarts
    obtain ⟨s', hall', hnumeral, -⟩ := (h _).1 (getContentLength_eq_some_iff.2 ⟨s, vals, hall, hstarts, rfl⟩)
    rw [hall, Option.some_inj, List.cons.injEq] at hall'
    obtain ⟨rfl, rfl⟩ := hall'
    exact ⟨rfl, hnumeral.2⟩
  · intro h n
    rw [getContentLength_eq_some_iff]
    constructor
    · rintro ⟨s, vals, hall, hstarts, rfl⟩
      obtain ⟨rfl, hdigits⟩ := h s vals hall hstarts
      exact ⟨s, hall, hstarts.isNumeral hdigits, rfl, hstarts.lt⟩
    · rintro ⟨s, hall, hnumeral, rfl, hlt⟩
      exact ⟨s, [], hall, hnumeral.startsNumber hlt, rfl⟩

/-- Two different lengths: the first one is taken. -/
theorem getContentLength_two :
    ¬∀ (headers : Headers) n, headers.getContentLength = some n ↔
      ∃ s, headers.getAll (sv "Content-Length") = some [s] ∧ IsNumeral s ∧ numeralValue 10 (digits 10 s) = n ∧
        n < 2 ^ 64 := by
  intro h
  obtain ⟨s, hall, -⟩ := (h (.addAll .empty [(sv "Content-Length", sv "5"), (sv "content-length", sv "6")]) 5).1
    (by decide +kernel)
  have htwo : getAll (.addAll .empty [(sv "Content-Length", sv "5"), (sv "content-length", sv "6")])
      (sv "Content-Length") = some [sv "5", sv "6"] := by decide +kernel
  cases htwo.symm.trans hall

end Headers

end Http

end Cppnet
