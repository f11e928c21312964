import Cppnet.Url.Escapes

/-!
# What `url::decode` does with any text

A text is cut, from the left to the right, into *triples*: a `%` and the two bytes behind it, with what is
in front of the `%`. The loop of `decode` takes one of them at a turn, and what is left behind the last one
at the end.

* `decode_safe_iff`: it stays in the string if and only if no `%` is left there.
* `decode_escaped`: where all triples are escapes, each is replaced by its byte, in a text and in each of two
  texts put together.
* `decode_triples_iff`: a triple that is no escape is dropped, and nothing else, if and only if nothing is in
  front of it and its first byte is no digit.
-/

namespace Cppnet.Url

open Lib

/-- A `%` and the two bytes behind it, with what is in front of it. -/
structure Triple where
  before : Bytes
  hi : Byte
  lo : Byte

namespace Triple

variable (t : Triple)

/-- The two bytes are hexadecimal digits. -/
def Valid : Prop := (digit 16 t.hi).isSome ∧ (digit 16 t.lo).isSome

instance : Decidable t.Valid := inferInstanceAs (Decidable (_ ∧ _))

/-- What a turn of the loop of `decode` writes. -/
def written : Bytes :=
  match fromChars 8 16 [t.hi, t.lo] with
  | .ok val => t.before ++ [UInt8.ofNat val]
  | .error _ => []

/-- What is to be written: the text in front of the triple, and the byte of an escape. -/
def prescribed : Bytes := t.before ++ if t.Valid then [escapedByte t.hi t.lo] else []

/-- The first of the two bytes is a digit, the second is none. -/
def Half : Prop := (digit 16 t.hi).isSome ∧ digit 16 t.lo = none

instance : Decidable t.Half := inferInstanceAs (Decidable (_ ∧ _))

/-- There is text in front, and the first of the two bytes is no digit. -/
def Swallows : Prop := digit 16 t.hi = none ∧ t.before ≠ []

instance : Decidable t.Swallows := inferInstanceAs (Decidable (_ ∧ _))

end Triple

/-- The triples of a text, and what is left behind them. -/
def triples : Bytes → List Triple × Bytes
  | c :: hi :: lo :: s =>
    if c = ch '%' then (⟨[], hi, lo⟩ :: (triples s).1, (triples s).2)
    else
      match triples (hi :: lo :: s) with
      | ([], rest) => ([], c :: rest)
      | (t :: ts, rest) => ({ t with before := c :: t.before } :: ts, rest)
  | s => ([], s)

/-- No `%` is left behind the triples: each has two bytes behind it. -/
def Fits (s : Bytes) : Prop := ch '%' ∉ (triples s).2

instance (s : Bytes) : Decidable (Fits s) := inferInstanceAs (Decidable (_ ∉ _))

/-- Every `%` has two bytes behind it. -/
def Followed : Bytes → Prop
  | [] => True
  | c :: s => (c = ch '%' → 2 ≤ s.length) ∧ Followed s

instance decidableFollowed : (s : Bytes) → Decidable (Followed s)
  | [] => .isTrue trivial
  | _ :: s => @instDecidableAnd _ _ _ (decidableFollowed s)

/-- The text with the escapes replaced, and the other triples dropped. -/
def dropInvalid : Bytes → Bytes
  | c :: hi :: lo :: s =>
    if c = ch '%' then
      if (digit 16 hi).isSome ∧ (digit 16 lo).isSome then escapedByte hi lo :: dropInvalid s
      else dropInvalid s
    else c :: dropInvalid (hi :: lo :: s)
  | s => s

/-- The positions that the loop of `decode` passes to `substr`, each with the length of the string it is a
    position in. -/
def substrCalls : ℕ → Bytes → List (ℕ × ℕ)
  | 0, _ => []
  | fuel + 1, str =>
    match find str (ch '%') 0 with
    | none => []
    | some idx =>
      (idx + 1, str.length) ::
        ((match fromChars 8 16 (substr str (idx + 1) 2) with
          | .ok _ => [(0, str.length)]
          | .error _ => []) ++
        (idx + 3, str.length) ::
          if idx + 3 ≤ str.length then substrCalls fuel (str.drop (idx + 3)) else [])

/-! ## Triples -/

section Triples

variable {a s t : Bytes} {c hi lo : Byte}

theorem triples_of_not_mem (h : ch '%' ∉ s) : triples s = ([], s) := by
  induction s with
  | nil => rfl
  | cons c s ih =>
    rw [List.mem_cons, not_or] at h
    rcases s with _ | ⟨hi, _ | ⟨lo, s⟩⟩
    · rfl
    · rfl
    · rw [triples, if_neg (Ne.symm h.1), ih h.2]

/-- There are two bytes from in front of a triple on. -/
theorem exists_two (a : Bytes) (hi lo : Byte) (s : Bytes) :
    ∃ x y t, a ++ ch '%' :: hi :: lo :: s = x :: y :: t := by
  rcases a with _ | ⟨x, _ | ⟨y, a⟩⟩
  · exact ⟨_, _, _, rfl⟩
  · exact ⟨_, _, _, rfl⟩
  · exact ⟨_, _, _, rfl⟩

theorem triples_append (h : ch '%' ∉ a) (hi lo : Byte) (s : Bytes) :
    triples (a ++ ch '%' :: hi :: lo :: s) = (⟨a, hi, lo⟩ :: (triples s).1, (triples s).2) := by
  induction a with
  | nil => rw [List.nil_append, triples, if_pos rfl]
  | cons c a ih =>
    rw [List.mem_cons, not_or] at h
    obtain ⟨x, y, t, ht⟩ := exists_two a hi lo s
    rw [List.cons_append, ht, triples, if_neg (Ne.symm h.1), ← ht, ih h.2]

/-- Less than two bytes are behind a `%`. -/
theorem triples_of_short (h : ch '%' ∉ a) (ht : t.length < 2) :
    triples (a ++ ch '%' :: t) = ([], a ++ ch '%' :: t) := by
  induction a with
  | nil =>
    rcases t with _ | ⟨x, _ | ⟨y, t⟩⟩
    · rfl
    · rfl
    · rw [List.length_cons, List.length_cons] at ht
      omega
  | cons c a ih =>
    rw [List.mem_cons, not_or] at h
    rcases hs : a ++ ch '%' :: t with _ | ⟨x, _ | ⟨y, s⟩⟩
    · rw [List.cons_append, hs]
      rfl
    · rw [List.cons_append, hs]
      rfl
    · rw [List.cons_append, hs, triples, if_neg (Ne.symm h.1), ← hs, ih h.2]

/-- A text has no `%`, or it has one without two bytes behind it, or it starts with a triple. -/
theorem triples_cases (s : Bytes) :
    (find s (ch '%') 0 = none ∧ triples s = ([], s) ∧ Fits s) ∨
    (∃ a t, s = a ++ ch '%' :: t ∧ find s (ch '%') 0 = some a.length ∧ t.length < 2 ∧ ¬Fits s) ∨
    ∃ a hi lo rest, s = a ++ ch '%' :: hi :: lo :: rest ∧ ch '%' ∉ a ∧ find s (ch '%') 0 = some a.length ∧
      triples s = (⟨a, hi, lo⟩ :: (triples rest).1, (triples rest).2) ∧ (Fits s ↔ Fits rest) := by
  rcases find_zero_cases s (ch '%') with ⟨hnot, hfind⟩ | ⟨a, t, rfl, ha, hfind⟩
  · have htriples := triples_of_not_mem hnot
    refine .inl ⟨hfind, htriples, ?_⟩
    rwa [Fits, htriples]
  · rcases t with _ | ⟨hi, _ | ⟨lo, rest⟩⟩
    · refine .inr (.inl ⟨a, [], rfl, hfind, by simp, fun h => ?_⟩)
      rw [Fits, triples_of_short ha (by simp)] at h
      exact h (by simp)
    · refine .inr (.inl ⟨a, [hi], rfl, hfind, by simp, fun h => ?_⟩)
      rw [Fits, triples_of_short ha (by simp)] at h
      exact h (by simp)
    · have htriples := triples_append ha hi lo rest
      refine .inr (.inr ⟨a, hi, lo, rest, rfl, ha, hfind, htriples, ?_⟩)
      rw [Fits, htriples, Fits]

theorem Followed.of_append (h : Followed (a ++ s)) : Followed s := by
  induction a with
  | nil => exact h
  | cons c a ih => exact ih h.2

/-- Where every `%` has two bytes behind it, so have those of the triples. -/
theorem Followed.fits (h : Followed s) : Fits s := by
  induction hn : s.length using Nat.strongRecOn generalizing s with
  | ind n ih =>
    rcases triples_cases s with ⟨-, -, hfits⟩ | ⟨a, t, rfl, -, hshort, -⟩ |
      ⟨a, hi, lo, rest, rfl, -, -, -, hiff⟩
    · exact hfits
    · have hlen := h.of_append.1 rfl
      omega
    · have hlen := length_triple a hi lo rest
      exact hiff.2 (ih rest.length (by omega) h.of_append.2.2.2 rfl)

end Triples

/-! ## The loop -/

/-- The loop writes what its turns write, and what is left, unless a `%` is. -/
theorem decodeLoop_triples {fuel : ℕ} {s : Bytes} (hfuel : s.length < fuel) (out : Bytes) :
    decodeLoop fuel out s =
      if Fits s then some (out ++ (triples s).1.flatMap Triple.written ++ (triples s).2) else none := by
  induction fuel generalizing s out with
  | zero => exact absurd hfuel (Nat.not_lt_zero _)
  | succ fuel ih =>
    rw [decodeLoop]
    rcases triples_cases s with ⟨hfind, htriples, hfits⟩ | ⟨a, t, rfl, hfind, hshort, hnot⟩ |
      ⟨a, hi, lo, rest, rfl, -, hfind, htriples, hiff⟩
    · rw [hfind, if_pos hfits, htriples]
      simp
    · have hlen : ¬a.length + 3 ≤ (a ++ ch '%' :: t).length := by
        rw [List.length_append, List.length_cons]
        omega
      rw [hfind, if_neg hnot]
      dsimp only
      rw [if_neg hlen]
    · have hlen := length_triple a hi lo rest
      rw [hfind, htriples]
      dsimp only
      rw [substr_triple, drop_triple, if_pos (by omega), List.take_left, ih (by omega), if_congr hiff rfl rfl,
        List.flatMap_cons, Triple.written]
      cases fromChars 8 16 [hi, lo] <;> simp

theorem decode_triples (s : Bytes) :
    decode s = if Fits s then some ((triples s).1.flatMap Triple.written ++ (triples s).2) else none := by
  rw [decode, decodeLoop_triples (Nat.lt_succ_self _), List.nil_append]

theorem substrCalls_iff {fuel : ℕ} {s : Bytes} (hfuel : s.length < fuel) :
    (∀ call ∈ substrCalls fuel s, call.1 ≤ call.2) ↔ Fits s := by
  induction fuel generalizing s with
  | zero => exact absurd hfuel (Nat.not_lt_zero _)
  | succ fuel ih =>
    rw [substrCalls]
    rcases triples_cases s with ⟨hfind, -, hfits⟩ | ⟨a, t, rfl, hfind, hshort, hnot⟩ |
      ⟨a, hi, lo, rest, rfl, -, hfind, -, hiff⟩
    · rw [hfind]
      exact iff_of_true (by simp) hfits
    · rw [hfind]
      refine iff_of_false (fun h => ?_) hnot
      have hlast := h (a.length + 3, (a ++ ch '%' :: t).length) (by simp)
      simp only [List.length_append, List.length_cons] at hlast
      omega
    · have hlen := length_triple a hi lo rest
      rw [hfind]
      dsimp only
      rw [substr_triple, drop_triple, if_pos (by omega), hiff, ← ih (by omega)]
      cases fromChars 8 16 [hi, lo] <;> simp

/-- All positions that `decode` passes to `substr` are in the string, and it returns, if and only if every
    triple has its two bytes. -/
theorem decode_safe_iff (str : Bytes) :
    ((∀ call ∈ substrCalls (str.length + 1) str, call.1 ≤ call.2) ↔ Fits str) ∧
      ((decode str).isSome ↔ Fits str) := by
  refine ⟨substrCalls_iff (Nat.lt_succ_self _), ?_⟩
  rw [decode_triples]
  split_ifs with h
  · exact iff_of_true rfl h
  · exact iff_of_false (by simp) h

/-- A `%` at the end of a path. -/
theorem decode_unsafe :
    (∃ call ∈ substrCalls (2 + 1) (sv "/%"), ¬call.1 ≤ call.2) ∧ decode (sv "/%") = none ∧
      Url.parse (sv "/%") = none := by
  decide

/-! ## Escapes -/

section Escaped

variable {a b s : Bytes}

theorem Escaped.append (ha : Escaped a) (hb : Escaped b) : Escaped (a ++ b) := by
  induction a with
  | nil => exact hb
  | cons c a ih =>
    refine ⟨fun hc => ?_, ih ha.2⟩
    obtain ⟨hlen, hdigits⟩ := ha.1 hc
    change 2 ≤ (a ++ b).length ∧ ∀ d ∈ (a ++ b).take 2, (digit 16 d).isSome
    rw [List.length_append, List.take_append_of_le_length hlen]
    exact ⟨by omega, hdigits⟩

/-- No escape starts in one of two texts and ends in the other. -/
theorem Escaped.percentDecode_append (ha : Escaped a) (b : Bytes) :
    percentDecode (a ++ b) = percentDecode a ++ percentDecode b := by
  induction hn : a.length using Nat.strongRecOn generalizing a with
  | ind n ih =>
    rcases a with _ | ⟨c, a⟩
    · rfl
    by_cases hc : c = ch '%'
    · subst hc
      obtain ⟨hi, lo, rest, rfl, -, -, hrest⟩ := ha.exists_digits
      have hlt : rest.length < n := by
        rw [← hn, List.length_cons, List.length_cons, List.length_cons]
        omega
      rw [List.cons_append, List.cons_append, List.cons_append, percentDecode, if_pos rfl, percentDecode,
        if_pos rfl, ih rest.length hlt hrest rfl, List.cons_append]
    · rw [List.cons_append, percentDecode_cons hc, percentDecode_cons hc,
        ih a.length (by rw [← hn, List.length_cons]; omega) ha.tail rfl, List.cons_append]

end Escaped

/-- Every escape of a text is replaced once, and what is decoded of two texts put together is what is decoded
    of each. -/
theorem decode_escaped {a b : Bytes} (ha : Escaped a) (hb : Escaped b) :
    decode a = some (percentDecode a) ∧ decode b = some (percentDecode b) ∧
      decode (a ++ b) = some (percentDecode a ++ percentDecode b) := by
  refine ⟨decode_eq ha, decode_eq hb, ?_⟩
  rw [decode_eq (ha.append hb), ha.percentDecode_append]

/-- What is decoded is no escape: a `%` of the first text, and two digits of the second. -/
theorem decode_escaped_percent :
    decode (sv "%2541") = some (sv "%41") ∧ decode (sv "%25" ++ sv "%34%31") = some (sv "%" ++ sv "41") :=
  ⟨(decode_escaped (a := sv "%2541") (b := []) (by decide) trivial).1,
    (decode_escaped (a := sv "%25") (b := sv "%34%31") (by decide) (by decide)).2.2⟩

/-! ## Triples that are no escapes -/

namespace Triple

variable {t : Triple}

theorem written_of_valid (h : t.Valid) : t.written = t.before ++ [escapedByte t.hi t.lo] := by
  obtain ⟨v, hv, hbyte⟩ := fromChars_escape h.1 h.2
  rw [written, hv, ← hbyte]

/-- Only the first of the two bytes is read: its value is written. -/
theorem written_of_half (h : t.Half) :
    t.written = t.before ++ [UInt8.ofNat ((digit 16 t.hi).getD 0)] := by
  obtain ⟨d, hd⟩ := Option.isSome_iff_exists.1 h.1
  have hdigits : digits 16 [t.hi, t.lo] = [d] := by
    rw [digits_cons hd, digits, h.2]
  have hlt : numeralValue 16 [d] < 2 ^ 8 := by
    have hd' := digit_lt hd
    simp only [numeralValue, List.foldl_cons, List.foldl_nil]
    omega
  have hread : fromChars 8 16 [t.hi, t.lo] = .ok (numeralValue 16 [d]) := by
    simp only [fromChars, hdigits, if_neg (List.cons_ne_nil _ _), if_pos hlt]
  rw [written, hread, hd]
  simp [numeralValue]

/-- Nothing is read: what is in front of the triple goes with it. -/
theorem written_of_none (h : digit 16 t.hi = none) : t.written = [] := by
  have hread : fromChars 8 16 [t.hi, t.lo] = .error .invalidArgument := by
    simp only [fromChars, digits, h, if_pos]
  rw [written, hread]

theorem prescribed_of_not_valid (h : ¬t.Valid) : t.prescribed = t.before := by
  rw [prescribed, if_neg h, List.append_nil]

theorem cases (t : Triple) : t.Valid ∨ t.Half ∨ digit 16 t.hi = none := by
  rcases hhi : digit 16 t.hi with _ | x
  · exact .inr (.inr rfl)
  · rcases hlo : digit 16 t.lo with _ | y
    · exact .inr (.inl ⟨by rw [hhi]; rfl, hlo⟩)
    · exact .inl ⟨by rw [hhi]; rfl, by rw [hlo]; rfl⟩

theorem Valid.not_half (h : t.Valid) : ¬t.Half := by
  intro hhalf
  have hlo := h.2
  rw [hhalf.2] at hlo
  cases hlo

theorem not_half_of_none (h : digit 16 t.hi = none) : ¬t.Half := by
  intro hhalf
  have hhi := hhalf.1
  rw [h] at hhi
  cases hhi

/-- The triples where the right text is written. -/
theorem written_eq_iff (t : Triple) : t.written = t.prescribed ↔ ¬t.Half ∧ ¬t.Swallows := by
  rcases t.cases with hvalid | hhalf | hnone
  · have hswallows : ¬t.Swallows := fun h => by
      have hhi := hvalid.1
      rw [h.1] at hhi
      cases hhi
    rw [written_of_valid hvalid, prescribed, if_pos hvalid]
    exact iff_of_true rfl ⟨hvalid.not_half, hswallows⟩
  · have hvalid : ¬t.Valid := fun h => h.not_half hhalf
    rw [written_of_half hhalf, prescribed_of_not_valid hvalid]
    exact iff_of_false (by simp) fun h => h.1 hhalf
  · have hvalid : ¬t.Valid := fun h => by
      have hhi := h.1
      rw [hnone] at hhi
      cases hhi
    rw [written_of_none hnone, prescribed_of_not_valid hvalid]
    exact ⟨fun h => ⟨not_half_of_none hnone, fun hswallows => hswallows.2 h.symm⟩, fun h => by
      by_contra hne
      exact h.2 ⟨hnone, Ne.symm hne⟩⟩

/-- Too little is written, unless only the first byte is a digit. -/
theorem length_written_le (h : ¬t.Half) : t.written.length ≤ t.prescribed.length := by
  rcases t.cases with hvalid | hhalf | hnone
  · rw [written_of_valid hvalid, prescribed, if_pos hvalid]
  · exact absurd hhalf h
  · rw [written_of_none hnone]
    exact Nat.zero_le _

/-- Too much is written, unless text is in front of a triple without digits. -/
theorem length_prescribed_le (h : ¬t.Swallows) : t.prescribed.length ≤ t.written.length := by
  by_cases hhalf : t.Half
  · rw [written_of_half hhalf, prescribed_of_not_valid fun h => h.not_half hhalf, List.length_append]
    omega
  · rw [(written_eq_iff t).2 ⟨hhalf, h⟩]

end Triple

/-- Texts that are at most as long as others, one by one, and are the same put together. -/
theorem eq_of_flatMap_eq {α β : Type*} {f g : α → List β} {l : List α} (h : l.flatMap f = l.flatMap g)
    (hle : ∀ x ∈ l, (f x).length ≤ (g x).length) : ∀ x ∈ l, f x = g x := by
  induction l with
  | nil => simp
  | cons x l ih =>
    have hlen : ∀ {l' : List α}, (∀ x ∈ l', (f x).length ≤ (g x).length) →
        (l'.flatMap f).length ≤ (l'.flatMap g).length := by
      intro l' hle'
      induction l' with
      | nil => exact le_refl _
      | cons y l' ih' =>
        have hy := hle' y List.mem_cons_self
        have hl' := ih' fun z hz => hle' z (List.mem_cons_of_mem y hz)
        rw [List.flatMap_cons, List.flatMap_cons, List.length_append, List.length_append]
        omega
    have hx := hle x List.mem_cons_self
    have hl := hlen fun y hy => hle y (List.mem_cons_of_mem x hy)
    have hsum := congrArg List.length h
    rw [List.flatMap_cons, List.flatMap_cons, List.length_append, List.length_append] at hsum
    obtain ⟨hhead, htail⟩ := List.append_inj h (by omega)
    intro y hy
    rcases List.mem_cons.1 hy with rfl | hy
    · exact hhead
    · exact ih htail (fun z hz => hle z (List.mem_cons_of_mem x hz)) y hy

theorem dropInvalid_of_not_mem {s : Bytes} (h : ch '%' ∉ s) : dropInvalid s = s := by
  induction s with
  | nil => rfl
  | cons c s ih =>
    rw [List.mem_cons, not_or] at h
    rcases s with _ | ⟨hi, _ | ⟨lo, s⟩⟩
    · rfl
    · rfl
    · rw [dropInvalid, if_neg (Ne.symm h.1), ih h.2]

theorem dropInvalid_append {a : Bytes} (h : ch '%' ∉ a) (hi lo : Byte) (s : Bytes) :
    dropInvalid (a ++ ch '%' :: hi :: lo :: s) = Triple.prescribed ⟨a, hi, lo⟩ ++ dropInvalid s := by
  induction a with
  | nil =>
    rw [List.nil_append, dropInvalid, if_pos rfl, Triple.prescribed]
    by_cases hvalid : Triple.Valid ⟨[], hi, lo⟩
    · rw [if_pos hvalid, if_pos (show (digit 16 hi).isSome ∧ (digit 16 lo).isSome from hvalid)]
      rfl
    · rw [if_neg hvalid, if_neg (show ¬((digit 16 hi).isSome ∧ (digit 16 lo).isSome) from hvalid)]
      rfl
  | cons c a ih =>
    rw [List.mem_cons, not_or] at h
    obtain ⟨x, y, t, ht⟩ := exists_two a hi lo s
    rw [List.cons_append, ht, dropInvalid, if_neg (Ne.symm h.1), ← ht, ih h.2]
    rfl

theorem dropInvalid_triples {s : Bytes} (h : Fits s) :
    dropInvalid s = (triples s).1.flatMap Triple.prescribed ++ (triples s).2 := by
  induction hn : s.length using Nat.strongRecOn generalizing s with
  | ind n ih =>
    rcases triples_cases s with ⟨-, htriples, hfits⟩ | ⟨a, t, rfl, -, -, hnot⟩ |
      ⟨a, hi, lo, rest, rfl, ha, -, htriples, hiff⟩
    · rw [Fits, htriples] at hfits
      rw [dropInvalid_of_not_mem hfits, htriples]
      rfl
    · exact absurd h hnot
    · have hlen := length_triple a hi lo rest
      rw [dropInvalid_append ha, htriples, ih rest.length (by omega) (hiff.1 h) rfl, List.flatMap_cons,
        List.append_assoc]

/-- Each triple is replaced by its byte or dropped, with nothing else, if and only if none has a digit for its
    first byte only, and none without one has text in front of it. So it is for the text as a whole, where
    these two do not make up for each other. -/
theorem decode_triples_iff {str : Bytes} (h : Followed str) :
    decode str = some ((triples str).1.flatMap Triple.written ++ (triples str).2) ∧
    dropInvalid str = (triples str).1.flatMap Triple.prescribed ++ (triples str).2 ∧
    ((∀ t ∈ (triples str).1, t.written = t.prescribed) ↔
      ∀ t ∈ (triples str).1, ¬t.Half ∧ ¬t.Swallows) ∧
    ((∀ t ∈ (triples str).1, ¬t.Half) ∨ (∀ t ∈ (triples str).1, ¬t.Swallows) →
      (decode str = some (dropInvalid str) ↔ ∀ t ∈ (triples str).1, ¬t.Half ∧ ¬t.Swallows)) := by
  have hdecode : decode str = some ((triples str).1.flatMap Triple.written ++ (triples str).2) := by
    rw [decode_triples, if_pos h.fits]
  have hdrop := dropInvalid_triples h.fits
  have heach : (∀ t ∈ (triples str).1, t.written = t.prescribed) ↔
      ∀ t ∈ (triples str).1, ¬t.Half ∧ ¬t.Swallows :=
    forall₂_congr fun t _ => t.written_eq_iff
  refine ⟨hdecode, hdrop, heach, fun hor => ?_⟩
  rw [← heach, hdecode, hdrop, Option.some_inj, List.append_left_inj]
  constructor
  · intro heq
    rcases hor with hhalf | hswallows
    · exact eq_of_flatMap_eq heq fun t ht => Triple.length_written_le (hhalf t ht)
    · intro t ht
      exact (eq_of_flatMap_eq heq.symm (fun t ht => Triple.length_prescribed_le (hswallows t ht)) t ht).symm
  · exact List.flatMap_congr

theorem decode_triples_iff_path :
    Followed (sv "a%41%zz") ∧ decode (sv "a%41%zz") = some (dropInvalid (sv "a%41%zz")) :=
  have h : Followed (sv "a%41%zz") := by decide
  have hgood : ∀ t ∈ (triples (sv "a%41%zz")).1, ¬t.Half ∧ ¬t.Swallows := by decide
  ⟨h, ((decode_triples_iff h).2.2.2 (.inl fun t ht => (hgood t ht).1)).2 hgood⟩

/-- The `a` goes with the triple behind it, and half of an escape is read. -/
theorem decode_keeps_not :
    (Followed (sv "a%zz") ∧ dropInvalid (sv "a%zz") = sv "a" ∧ decode (sv "a%zz") = some []) ∧
      (Followed (sv "%4g") ∧ dropInvalid (sv "%4g") = [] ∧ decode (sv "%4g") = some [4]) := by
  decide

end Cppnet.Url
