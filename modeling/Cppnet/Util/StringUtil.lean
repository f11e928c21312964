import Cppnet.Bytes
import Mathlib.Data.List.DropRight
import Mathlib.Data.List.Infix

/-!
# `string_util`

`util/string_util.hpp`: comparison ignoring case, splitting at a separator,
trimming, and removing quotes.

Splitting gives back all of the string, cut at every separator
(`splitString_exact`).

Trimming removes bytes, not characters: those of the UTF-8 encodings of the
spaces of Unicode count as whitespace one by one. A string of whitespace only is
left as it is (`trimString_of_whitespace`), every other one is cut down to the
part between its first and its last byte that is no whitespace
(`trimString_append`, `trimString_trims_iff`).
-/

namespace Cppnet.Util

/-! ## Case -/

/-- `std::tolower`, in the C locale. -/
def tolower (c : Byte) : Byte := if ch 'A' ≤ c ∧ c ≤ ch 'Z' then c + 32 else c

/-- A string in lower case. -/
def lower (s : Bytes) : Bytes := s.map tolower

/-- `equal_ignore_case`. -/
def equalIgnoreCase (lhs rhs : Bytes) : Bool := lower lhs == lower rhs

theorem equalIgnoreCase_iff {lhs rhs : Bytes} : equalIgnoreCase lhs rhs ↔ lower lhs = lower rhs :=
  beq_iff_eq

/-- A byte that is no letter. -/
def NoLetter (c : Byte) : Prop := c < ch 'A' ∨ (ch 'Z' < c ∧ c < ch 'a') ∨ ch 'z' < c

instance (c : Byte) : Decidable (NoLetter c) := inferInstanceAs (Decidable (_ ∨ _))

/-- Lower case is about letters only. -/
theorem tolower_eq_iff {c : Byte} (hc : NoLetter c) (b : Byte) : tolower b = c ↔ b = c := by
  rw [tolower]
  split_ifs with hb
  · -- A capital letter becomes a small one, and neither is `c`.
    obtain ⟨hb₁, hb₂⟩ : 65 ≤ b.toNat ∧ b.toNat ≤ 90 := hb
    have hc' : c.toNat < 65 ∨ (90 < c.toNat ∧ c.toNat < 97) ∨ 122 < c.toNat := hc
    have hadd : (b + 32).toNat = b.toNat + 32 := by
      rw [UInt8.toNat_add]
      exact Nat.mod_eq_of_lt (show b.toNat + 32 < 2 ^ 8 by omega)
    refine iff_of_false ?_ ?_
    · rintro rfl
      omega
    · rintro rfl
      omega
  · exact Iff.rfl

theorem mem_lower_iff {c : Byte} (hc : NoLetter c) {s : Bytes} : c ∈ lower s ↔ c ∈ s := by
  simp [lower, tolower_eq_iff hc]

/-- Strings without letters stand where they stood. -/
theorem isInfix_lower_iff {p s : Bytes} (hp : ∀ c ∈ p, NoLetter c) : p <:+: lower s ↔ p <:+: s := by
  have hlower : ∀ q : Bytes, lower q = p ↔ q = p := by
    induction p with
    | nil => simp [lower]
    | cons c p ih =>
      obtain ⟨hc, hp⟩ := List.forall_mem_cons.1 hp
      intro q
      rcases q with _ | ⟨b, q⟩
      · simp [lower]
      · have h := ih hp q
        rw [lower] at h ⊢
        rw [List.map_cons, List.cons.injEq, List.cons.injEq, tolower_eq_iff hc, h]
  constructor
  · rintro ⟨a, b, h⟩
    obtain ⟨ap, b', rfl, hap, -⟩ := List.map_eq_append_iff.1 h.symm
    obtain ⟨a', p', rfl, -, hp'⟩ := List.map_eq_append_iff.1 hap
    rw [← (hlower p').1 hp']
    exact ⟨a', b', rfl⟩
  · rintro ⟨a, b, rfl⟩
    refine ⟨lower a, lower b, ?_⟩
    conv_lhs => rw [← (hlower p).2 rfl]
    simp only [lower, List.map_append]

/-! ## Splitting -/

/-- The loop of `split_string`, from the position `i` on. -/
def splitFrom (input : Bytes) (sep : Byte) : ℕ → ℕ → List Bytes
  | 0, _ => []
  | fuel + 1, i =>
    if i ≤ input.length then
      match find input sep i with
      | none => [input.drop i]
      | some next => substr input i (next - i) :: splitFrom input sep fuel (next + 1)
    else []

/-- `split_string`: the parts between the separators. Every turn but the last
    passes over a separator. -/
def splitString (input : Bytes) (sep : Byte) (start : ℕ) : List Bytes :=
  splitFrom input sep (input.length + 1) start

theorem splitFrom_eq (sep : Byte) (pre t : Bytes) {fuel : ℕ} (hfuel : t.length < fuel) :
    splitFrom (pre ++ t) sep fuel pre.length = t.splitOn sep := by
  induction fuel generalizing pre t with
  | zero => exact absurd hfuel (Nat.not_lt_zero _)
  | succ fuel ih =>
    rw [splitFrom, if_pos (by simp)]
    by_cases hsep : sep ∈ t
    · obtain ⟨a, rest, rfl, ha⟩ := List.eq_append_cons_of_mem hsep
      have hpos : pre.length + a.length + 1 = (pre ++ a ++ [sep]).length := by simp; omega
      have htext : pre ++ (a ++ sep :: rest) = (pre ++ a ++ [sep]) ++ rest := by simp
      have hrest : rest.length < fuel := by
        simp only [List.length_append, List.length_cons] at hfuel
        omega
      rw [find_eq_some pre rest ha, List.splitOn_append_cons_self_of_not_mem ha]
      dsimp only
      rw [Nat.add_sub_cancel_left, substr_append, hpos, htext, ih _ _ hrest]
    · rw [find_eq_none pre hsep, List.drop_left, List.splitOn_eq_singleton hsep]

/-- `split_string` gives what is between the separators, from `start` on. -/
theorem splitString_eq (input : Bytes) (sep : Byte) {start : ℕ} (hs : start ≤ input.length) :
    splitString input sep start = (input.drop start).splitOn sep := by
  have hlen : (input.drop start).length < input.length + 1 := by
    rw [List.length_drop]
    omega
  have h := splitFrom_eq sep (input.take start) (input.drop start) hlen
  rwa [List.take_append_drop, List.length_take_of_le hs] at h

/-- The separator is in none of the parts. -/
theorem not_mem_of_mem_splitOn {a : Byte} (xs : Bytes) : ∀ part ∈ xs.splitOn a, a ∉ part := by
  induction xs with
  | nil => simp
  | cons x xs ih =>
    rw [List.splitOn_cons_eq_if_modifyHead]
    split_ifs with hx
    · simpa using ih
    · obtain ⟨part, parts, hsplit⟩ := List.exists_cons_of_ne_nil (List.splitOn_ne_nil a xs)
      rw [hsplit, List.forall_mem_cons] at ih
      rw [hsplit, List.modifyHead_cons, List.forall_mem_cons, List.mem_cons, not_or]
      exact ⟨⟨fun h => hx (by simp [h]), ih.1⟩, ih.2⟩

/-- There is one more part than separators. -/
theorem length_splitOn (a : Byte) (xs : Bytes) : (xs.splitOn a).length = xs.count a + 1 := by
  induction xs with
  | nil => simp
  | cons x xs ih =>
    rw [List.splitOn_cons_eq_if_modifyHead, List.count_cons]
    split_ifs with hx
    · rw [List.length_cons, ih]
    · rw [List.length_modifyHead, ih, Nat.add_zero]

/-- The parts that `split_string` gives, with the separator between them again, are the string from `start` on; no
    part has the separator in it, and there is one more of them than separators. -/
theorem splitString_exact (input : Bytes) (sep : Byte) {start : ℕ} (hs : start ≤ input.length) :
    [sep].intercalate (splitString input sep start) = input.drop start ∧
      (∀ part ∈ splitString input sep start, sep ∉ part) ∧
      (splitString input sep start).length = (input.drop start).count sep + 1 := by
  rw [splitString_eq input sep hs]
  exact ⟨List.intercalate_splitOn sep, not_mem_of_mem_splitOn _, length_splitOn sep _⟩

/-- Separators at the start, at the end, and two in a row: empty parts. -/
theorem splitString_exact_five :
    [ch ','].intercalate (splitString (sv "x,,a,b,") (ch ',') 1) = sv ",,a,b," ∧
      (∀ part ∈ splitString (sv "x,,a,b,") (ch ',') 1, ch ',' ∉ part) ∧
      (splitString (sv "x,,a,b,") (ch ',') 1).length = 5 :=
  splitString_exact (sv "x,,a,b,") (ch ',') (by decide)

/-! ## Trimming -/

/-- The bytes of the spaces `trim_string` looks for. -/
def whitespace : Bytes :=
  sv " " ++ [8, 12, 10, 13, 9, 11] ++
    -- U+2000 to U+200A
    [0xE2, 0x80, 0x80, 0xE2, 0x80, 0x81, 0xE2, 0x80, 0x82, 0xE2, 0x80, 0x83, 0xE2, 0x80, 0x84,
      0xE2, 0x80, 0x85, 0xE2, 0x80, 0x86, 0xE2, 0x80, 0x87, 0xE2, 0x80, 0x88, 0xE2, 0x80, 0x89,
      0xE2, 0x80, 0x8A] ++
    -- U+2028, U+2029, U+202F, U+205F, U+3000
    [0xE2, 0x80, 0xA8, 0xE2, 0x80, 0xA9, 0xE2, 0x80, 0xAF, 0xE2, 0x81, 0x9F, 0xE3, 0x80, 0x80]

/-- `trim_string`. -/
def trimString (str : Bytes) : Bytes :=
  let firstNotSpace := (findFirstNotOf str whitespace).getD 0
  let lastNotSpace := (findLastNotOf str whitespace).getD str.length
  substr str firstNotSpace (lastNotSpace + 1 - firstNotSpace)

/-- No whitespace at either end. -/
def Trimmed (s : Bytes) : Prop :=
  (∀ b ∈ s.head?, b ∉ whitespace) ∧ ∀ b ∈ s.getLast?, b ∉ whitespace

instance (s : Bytes) : Decidable (Trimmed s) := inferInstanceAs (Decidable (_ ∧ _))

theorem trimString_of_whitespace {s : Bytes} (hs : ∀ b ∈ s, b ∈ whitespace) :
    trimString s = s := by
  have hnone : ∀ t : Bytes, (∀ b ∈ t, b ∈ whitespace) → findFirstNotOf t whitespace = none :=
    fun t ht => findFirst_eq_none [] fun b hb => by simpa using ht b hb
  rw [trimString, findLastNotOf, hnone s hs, hnone s.reverse (by simpa using hs)]
  exact List.take_of_length_le (Nat.le_succ _)

theorem findFirstNotOf_append {w t : Bytes} (hw : ∀ b ∈ w, b ∈ whitespace) (hne : t ≠ [])
    (ht : ∀ b ∈ t.head?, b ∉ whitespace) :
    findFirstNotOf (w ++ t) whitespace = some w.length := by
  obtain ⟨c, t, rfl⟩ := List.exists_cons_of_ne_nil hne
  have h := findFirst_eq_some (p := fun b => !whitespace.contains b) [] t
    (fun b hb => by simpa using hw b hb) (by simpa using ht c rfl)
  rwa [List.length_nil, Nat.zero_add] at h

/-- Trimming removes the whitespace at both ends of something trimmed. -/
theorem trimString_append {w t w' : Bytes} (hw : ∀ b ∈ w, b ∈ whitespace)
    (hw' : ∀ b ∈ w', b ∈ whitespace) (hne : t ≠ []) (ht : Trimmed t) :
    trimString (w ++ (t ++ w')) = t := by
  have hfirst : findFirstNotOf (w ++ (t ++ w')) whitespace = some w.length := by
    refine findFirstNotOf_append hw (by simp [hne]) ?_
    rw [List.head?_append_of_ne_nil _ hne]
    exact ht.1
  have hlast : findFirstNotOf (w ++ (t ++ w')).reverse whitespace = some w'.length := by
    have hhead : ∀ b ∈ (t.reverse ++ w.reverse).head?, b ∉ whitespace := by
      rw [List.head?_append_of_ne_nil _ (by simpa using hne), List.head?_reverse]
      exact ht.2
    have h := findFirstNotOf_append (w := w'.reverse) (by simpa using hw') (by simp [hne]) hhead
    rw [List.length_reverse] at h
    rwa [List.reverse_append, List.reverse_append, List.append_assoc]
  have hpos := List.length_pos_iff.2 hne
  have hcount : (w ++ (t ++ w')).length - 1 - w'.length + 1 - w.length = t.length := by
    simp only [List.length_append]
    omega
  rw [trimString, findLastNotOf, hfirst, hlast]
  simp only [Option.map_some, Option.getD_some, hcount, substr_append]

/-- Trimming leaves what is trimmed. -/
theorem trimString_of_trimmed {t : Bytes} (ht : Trimmed t) : trimString t = t := by
  by_cases hne : t = []
  · rw [hne]
    rfl
  · have hnil : ∀ b ∈ ([] : Bytes), b ∈ whitespace := by simp
    have h := trimString_append hnil hnil hne ht
    rwa [List.nil_append, List.append_nil] at h

/-- Trimming removes a space before what is trimmed. -/
theorem trimString_space {t : Bytes} (hne : t ≠ []) (ht : Trimmed t) :
    trimString (ch ' ' :: t) = t := by
  have hspace : ∀ b ∈ [ch ' '], b ∈ whitespace := by decide
  have hnil : ∀ b ∈ ([] : Bytes), b ∈ whitespace := by simp
  have h := trimString_append hspace hnil hne ht
  rwa [List.append_nil, List.singleton_append] at h

/-- Numerals have no whitespace. -/
theorem trimmed_of_isNumeral {s : Bytes} (hs : IsNumeral s) : Trimmed s := by
  have hdigit : ∀ c ∈ whitespace, digit 10 c = none := by decide
  exact ⟨fun b hb hw => hs.not_mem (hdigit b hw) (List.mem_of_mem_head? hb),
    fun b hb hw => hs.not_mem (hdigit b hw) (List.mem_of_mem_getLast? hb)⟩

/-- A list without the elements with a property at both ends. -/
def dropEnds {α : Type*} (p : α → Bool) (s : List α) : List α := (s.dropWhile p).rdropWhile p

/-- All elements have the property, or those at both ends of the rest do. -/
theorem dropEnds_cases {α : Type*} (p : α → Bool) (s : List α) : (∀ a ∈ s, p a) ∨
    ∃ w w', s = w ++ (dropEnds p s ++ w') ∧ (∀ a ∈ w, p a) ∧ (∀ a ∈ w', p a) ∧ dropEnds p s ≠ [] ∧
      (∀ a ∈ (dropEnds p s).head?, ¬p a) ∧ ∀ a ∈ (dropEnds p s).getLast?, ¬p a := by
  by_cases hs : ∀ a ∈ s, p a
  · exact .inl hs
  right
  have hd : s.dropWhile p ≠ [] := by simpa [List.dropWhile_eq_nil_iff] using hs
  have hhead : ∀ a ∈ (s.dropWhile p).head?, ¬p a := fun a ha => by
    have h := List.head?_dropWhile_not p s
    rw [ha] at h
    simpa using h
  have hr : (s.dropWhile p).rdropWhile p ≠ [] := fun h => by
    rw [List.rdropWhile_eq_nil_iff] at h
    obtain ⟨a, t, ht⟩ := List.exists_cons_of_ne_nil hd
    exact hhead a (by rw [ht]; rfl) (h a (by simp [ht]))
  refine ⟨s.takeWhile p, (s.dropWhile p).rtakeWhile p, ?_, ?_, ?_, hr, ?_, ?_⟩
  · rw [dropEnds, List.rdropWhile_append_rtakeWhile, List.takeWhile_append_dropWhile]
  · exact fun a ha => List.mem_takeWhile_imp ha
  · exact fun a ha => List.mem_rtakeWhile_imp ha
  · intro a ha
    refine hhead a ?_
    rw [← List.rdropWhile_append_rtakeWhile (p := p) (l := s.dropWhile p), List.head?_append_of_ne_nil _ hr]
    exact ha
  · intro a ha
    rw [dropEnds, List.getLast?_eq_getLast_of_ne_nil hr, Option.mem_some_iff] at ha
    rw [← ha]
    exact List.rdropWhile_last_not p (s.dropWhile p) hr

/-- A string is all whitespace, or something trimmed between whitespace. -/
theorem trim_cases (s : Bytes) : (∀ b ∈ s, b ∈ whitespace) ∨
    ∃ w t w', s = w ++ (t ++ w') ∧ (∀ b ∈ w, b ∈ whitespace) ∧ (∀ b ∈ w', b ∈ whitespace) ∧
      t ≠ [] ∧ Trimmed t := by
  rcases dropEnds_cases (fun b => decide (b ∈ whitespace)) s with hs | ⟨w, w', heq, hw, hw', hne, hhead, hlast⟩
  · exact .inl (by simpa using hs)
  · refine .inr ⟨w, _, w', heq, ?_, ?_, hne, ?_, ?_⟩
    · simpa using hw
    · simpa using hw'
    · simpa using hhead
    · simpa using hlast

/-- Trimming cuts a part out of the string. -/
theorem trimString_isInfix (s : Bytes) : trimString s <:+: s := by
  rcases trim_cases s with hs | ⟨w, t, w', rfl, hw, hw', hne, ht⟩
  · rw [trimString_of_whitespace hs]
  · rw [trimString_append hw hw' hne ht]
    exact ⟨w, w', by simp⟩

/-- Trimming twice is trimming once. -/
theorem trimString_trimString (s : Bytes) : trimString (trimString s) = trimString s := by
  rcases trim_cases s with hs | ⟨w, t, w', rfl, hw, hw', hne, ht⟩
  · rw [trimString_of_whitespace hs, trimString_of_whitespace hs]
  · rw [trimString_append hw hw' hne ht, trimString_of_trimmed ht]

/-- What trimming leaves is what it took the whitespace from both ends of, and has none there, unless the string is
    nothing but whitespace: then it is left as it is. Trimming twice is trimming once in any case. -/
theorem trimString_trims_iff (s : Bytes) :
    ((∃ p q, s = p ++ (trimString s ++ q) ∧ (∀ b ∈ p, b ∈ whitespace) ∧ ∀ b ∈ q, b ∈ whitespace) ∧
      (trimString s = [] ∨ Trimmed (trimString s)) ∧ trimString (trimString s) = trimString s) ↔
    (s = [] ∨ ∃ b ∈ s, b ∉ whitespace) := by
  have hnil : ∀ b ∈ ([] : Bytes), b ∈ whitespace := fun _ hb => absurd hb List.not_mem_nil
  rcases trim_cases s with hs | ⟨w, t, w', rfl, hw, hw', hne, ht⟩
  · rw [trimString_of_whitespace hs]
    constructor
    · rintro ⟨-, rfl | htrimmed, -⟩
      · exact .inl rfl
      · -- The first byte is whitespace, if there is one.
        rcases s with _ | ⟨b, s⟩
        · exact .inl rfl
        · exact absurd (hs b List.mem_cons_self) (htrimmed.1 b rfl)
    · rintro (rfl | ⟨b, hb, hnot⟩)
      · exact ⟨⟨[], [], rfl, hnil, hnil⟩, .inl rfl, rfl⟩
      · exact absurd (hs b hb) hnot
  · rw [trimString_append hw hw' hne ht]
    have hhead : t.head hne ∉ whitespace := ht.1 _ (List.head?_eq_some_head hne)
    refine iff_of_true ⟨⟨w, w', rfl, hw, hw'⟩, .inr ht, trimString_of_trimmed ht⟩ (.inr ⟨t.head hne, ?_, hhead⟩)
    exact List.mem_append_right _ (List.mem_append_left _ (List.head_mem hne))

/-- Two spaces are left as they are: neither nothing, nor without whitespace at the ends. -/
theorem trimString_not_trims : trimString (sv "  ") = sv "  " ∧
    ¬(trimString (sv "  ") = [] ∨ Trimmed (trimString (sv "  "))) := by
  decide

/-- Trimming does not mind the case. -/
theorem trimString_lower (s : Bytes) : trimString (lower s) = lower (trimString s) := by
  have hspace : ∀ b : Byte, tolower b ∈ whitespace ↔ b ∈ whitespace := by
    have hno : ∀ c ∈ whitespace, NoLetter c := by decide
    intro b
    constructor
    · intro h
      rwa [(tolower_eq_iff (hno _ h) b).1 rfl]
    · intro h
      rwa [(tolower_eq_iff (hno _ h) b).2 rfl]
  have hlower : ∀ w : Bytes, (∀ b ∈ w, b ∈ whitespace) → ∀ b ∈ lower w, b ∈ whitespace := by
    intro w hw
    simpa [lower, hspace] using hw
  rcases trim_cases s with hs | ⟨w, t, w', rfl, hw, hw', hne, ht⟩
  · rw [trimString_of_whitespace hs, trimString_of_whitespace (hlower s hs)]
  · have ht' : Trimmed (lower t) := by
      simpa [Trimmed, lower, hspace] using ht
    have hne' : lower t ≠ [] := by simpa [lower] using hne
    have h := trimString_append (hlower w hw) (hlower w' hw') hne' ht'
    rw [trimString_append hw hw' hne ht, ← h]
    simp only [lower, List.map_append]

/-! ## Quotes -/

/-- The quotes `unquote` removes. -/
def quotes : Bytes := [ch '"', ch '\'']

/-- `unquote`. -/
def unquote (str : Bytes) : Bytes :=
  if str.length < 3 then str
  else if str.head? ≠ some (ch '"') ∧ str.head? ≠ some (ch '\'') then str
  else if str.head? ≠ str.getLast? then str
  else substr str 1 (str.length - 2)

/-- Quotes are removed from around something. -/
theorem unquote_quoted {q : Byte} (hq : q ∈ quotes) {s : Bytes} (hne : s ≠ []) : unquote (q :: (s ++ [q])) = s := by
  have hlen := List.length_pos_iff.2 hne
  have hlast : (q :: (s ++ [q])).getLast? = some q := by
    rw [← List.cons_append, List.getLast?_append_of_ne_nil _ (by simp), List.getLast?_singleton]
  have hquote : ¬(some q ≠ some (ch '"') ∧ some q ≠ some (ch '\'')) := by
    simp only [quotes, List.mem_cons, List.not_mem_nil, or_false] at hq
    rcases hq with rfl | rfl <;> simp
  rw [unquote, if_neg (by simp; omega), List.head?_cons, if_neg hquote, hlast, if_neg (by simp)]
  simp [substr]

/-- Without a quote at its start, a string is left as it is. -/
theorem unquote_of_head {s : Bytes} (hs : ∀ c ∈ s.head?, c ∉ quotes) : unquote s = s := by
  have hquote : s.head? ≠ some (ch '"') ∧ s.head? ≠ some (ch '\'') :=
    ⟨fun h => hs _ h (by decide), fun h => hs _ h (by decide)⟩
  rw [unquote, if_pos hquote]
  split_ifs <;> rfl

end Cppnet.Util
