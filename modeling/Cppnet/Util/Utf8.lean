import Cppnet.Util.StringUtil

/-!
# Trimming UTF-8

The literal of `trim_string` lists code points, and its search is for bytes: those of the encodings of the listed
code points, one by one. Some of them are in the encodings of other code points too, at the start (E2 and E3: U+2000
to U+3FFF) or at the end.

* `trimString_utf8_iff`: listed code points are removed at both ends, and nothing else, if and only if what is left
  neither starts nor ends with such a byte, or the string has no other bytes, and is left as it is.
-/

namespace Cppnet.Util

/-- A string in UTF-8, by its code points. -/
def utf8 (cs : List Char) : Bytes := cs.flatMap String.utf8EncodeChar

/-- The code points that `trim_string` lists. -/
def listed : List Char :=
  [' ', '\x08', '\x0c', '\n', '\r', '\t', '\x0b', '\u2000', '\u2001', '\u2002', '\u2003', '\u2004', '\u2005', '\u2006',
    '\u2007', '\u2008', '\u2009', '\u200A', '\u2028', '\u2029', '\u202f', '\u205f', '\u3000']

/-- The string that `trim_string` searches for the bytes of. -/
theorem utf8_listed : utf8 listed = whitespace := by decide

/-- Without the listed code points at both ends. -/
def trimListed (cs : List Char) : List Char := dropEnds (fun c => decide (c ∈ listed)) cs

/-- Of the code points that are not listed: those whose first byte is in the set. -/
def Leads (c : Char) : Prop := 0x2000 ≤ c.toNat ∧ c.toNat < 0x4000

/-- Of the code points that are not listed: those whose last byte is in the set. -/
def Trails (c : Char) : Prop :=
  0x80 ≤ c.toNat ∧ (c.toNat % 64 ≤ 10 ∨ c.toNat % 64 ∈ [31, 40, 41, 47])

instance (c : Char) : Decidable (Leads c) := inferInstanceAs (Decidable (_ ∧ _))

instance (c : Char) : Decidable (Trails c) := inferInstanceAs (Decidable (_ ∧ _))

/-- The bytes of the set. -/
theorem ofNat_mem_whitespace : ∀ n < 256, UInt8.ofNat n ∈ whitespace ↔
    (8 ≤ n ∧ n ≤ 13 ∨ n = 32) ∨ 128 ≤ n ∧ n ≤ 138 ∨ n ∈ [159, 168, 169, 175] ∨ n = 226 ∨ n = 227 := by
  have hnat : ∀ n < 256, n ∈ whitespace.map UInt8.toNat ↔ (8 ≤ n ∧ n ≤ 13 ∨ n = 32) ∨
      128 ≤ n ∧ n ≤ 138 ∨ n ∈ [159, 168, 169, 175] ∨ n = 226 ∨ n = 227 := by
    decide +kernel
  intro n hn
  rw [← hnat n hn, ← List.mem_map_of_injective (fun _ _ => UInt8.toNat_inj.1), UInt8.toNat_ofNat_of_lt' hn]

/-- Those of ASCII are listed. -/
theorem ascii_listed {c : Char} (hc : 8 ≤ c.toNat ∧ c.toNat ≤ 13 ∨ c.toNat = 32) : c ∈ listed := by
  have hlisted : ∀ n < 33, 8 ≤ n ∧ n ≤ 13 ∨ n = 32 → Char.ofNat n ∈ listed := by decide
  rw [← Char.ofNat_toNat c]
  exact hlisted c.toNat (by omega) hc

theorem leads_iff {c : Char} (hc : c ∉ listed) :
    (∃ b ∈ (String.utf8EncodeChar c).head?, b ∈ whitespace) ↔ Leads c := by
  have hascii : ¬(8 ≤ c.toNat ∧ c.toNat ≤ 13 ∨ c.toNat = 32) := fun h => hc (ascii_listed h)
  have hval : c.val.toNat = c.toNat := rfl
  rw [Leads]
  fun_cases String.utf8EncodeChar c
  all_goals
    simp only [List.head?_cons, Option.mem_def, Option.some.injEq, exists_eq_left']
    rw [ofNat_mem_whitespace _ (by omega)]
    simp only [List.mem_cons, List.not_mem_nil, or_false]
    omega

theorem trails_iff {c : Char} (hc : c ∉ listed) :
    (∃ b ∈ (String.utf8EncodeChar c).getLast?, b ∈ whitespace) ↔ Trails c := by
  have hascii : ¬(8 ≤ c.toNat ∧ c.toNat ≤ 13 ∨ c.toNat = 32) := fun h => hc (ascii_listed h)
  have hval : c.val.toNat = c.toNat := rfl
  rw [Trails]
  fun_cases String.utf8EncodeChar c
  all_goals
    simp only [List.getLast?_cons_cons, List.getLast?_singleton, Option.mem_def, Option.some.injEq, exists_eq_left']
    rw [ofNat_mem_whitespace _ (by omega)]
    simp only [List.mem_cons, List.not_mem_nil, or_false]
    omega

theorem utf8_append (cs cs' : List Char) : utf8 (cs ++ cs') = utf8 cs ++ utf8 cs' := List.flatMap_append

theorem utf8_eq_nil_iff {cs : List Char} : utf8 cs = [] ↔ cs = [] := by
  rw [utf8, List.flatMap_eq_nil_iff]
  constructor
  · intro h
    exact List.eq_nil_iff_forall_not_mem.2 fun c hc => String.utf8EncodeChar_ne_nil (h c hc)
  · rintro rfl c hc
    exact absurd hc List.not_mem_nil

theorem mem_whitespace_of_listed {cs : List Char} (hcs : ∀ c ∈ cs, c ∈ listed) : ∀ b ∈ utf8 cs, b ∈ whitespace := by
  intro b hb
  obtain ⟨c, hc, hb⟩ := List.mem_flatMap.1 hb
  rw [← utf8_listed]
  exact List.mem_flatMap.2 ⟨c, hcs c hc, hb⟩

theorem head?_utf8 (cs : List Char) :
    (utf8 cs).head? = cs.head?.bind fun c => (String.utf8EncodeChar c).head? := by
  cases cs with
  | nil => rfl
  | cons c cs =>
    rw [utf8, List.flatMap_cons, List.head?_append_of_ne_nil _ String.utf8EncodeChar_ne_nil]
    rfl

theorem getLast?_utf8 (cs : List Char) :
    (utf8 cs).getLast? = cs.getLast?.bind fun c => (String.utf8EncodeChar c).getLast? := by
  induction cs using List.reverseRecOn with
  | nil => rfl
  | append_singleton cs c _ =>
    rw [utf8_append, utf8, utf8, List.flatMap_singleton, List.getLast?_append_of_ne_nil _ String.utf8EncodeChar_ne_nil,
      List.getLast?_append_of_ne_nil _ (List.cons_ne_nil _ _), List.getLast?_singleton, Option.bind_some]

theorem trimmed_utf8_iff {cs : List Char} (hhead : ∀ c ∈ cs.head?, c ∉ listed) (hlast : ∀ c ∈ cs.getLast?, c ∉ listed) :
    Trimmed (utf8 cs) ↔ (∀ c ∈ cs.head?, ¬Leads c) ∧ ∀ c ∈ cs.getLast?, ¬Trails c := by
  rw [Trimmed, head?_utf8, getLast?_utf8]
  refine and_congr ?_ ?_
  · constructor
    · intro h c hc hleads
      obtain ⟨b, hb, hmem⟩ := (leads_iff (hhead c hc)).2 hleads
      exact h b (Option.bind_eq_some_iff.2 ⟨c, hc, hb⟩) hmem
    · intro h b hb hmem
      obtain ⟨c, hc, hb⟩ := Option.bind_eq_some_iff.1 hb
      exact h c hc ((leads_iff (hhead c hc)).1 ⟨b, hb, hmem⟩)
  · constructor
    · intro h c hc htrails
      obtain ⟨b, hb, hmem⟩ := (trails_iff (hlast c hc)).2 htrails
      exact h b (Option.bind_eq_some_iff.2 ⟨c, hc, hb⟩) hmem
    · intro h b hb hmem
      obtain ⟨c, hc, hb⟩ := Option.bind_eq_some_iff.1 hb
      exact h c hc ((trails_iff (hlast c hc)).1 ⟨b, hb, hmem⟩)

/-- The listed code points at both ends, and what is between them. -/
theorem exists_trimListed {cs : List Char} (hcs : ∃ c ∈ cs, c ∉ listed) : ∃ w w', cs = w ++ (trimListed cs ++ w') ∧
    (∀ c ∈ w, c ∈ listed) ∧ (∀ c ∈ w', c ∈ listed) ∧ trimListed cs ≠ [] ∧
    (∀ c ∈ (trimListed cs).head?, c ∉ listed) ∧ ∀ c ∈ (trimListed cs).getLast?, c ∉ listed := by
  obtain ⟨c, hc, hnot⟩ := hcs
  rcases dropEnds_cases (fun c => decide (c ∈ listed)) cs with hall | h
  · exact absurd (of_decide_eq_true (hall c hc)) hnot
  · simpa only [trimListed, decide_eq_true_eq] using h

/-- Of a string with a code point that is not listed, the listed ones at both ends are removed and nothing else, if
    the first byte and the last one of the rest are not in the set. Otherwise they are, as long as others are left;
    if there are none, nothing at all is removed. -/
theorem trimString_utf8_iff {cs : List Char} (hcs : ∃ c ∈ cs, c ∉ listed) :
    trimString (utf8 cs) = utf8 (trimListed cs) ↔
      ((∀ c ∈ (trimListed cs).head?, ¬Leads c) ∧ ∀ c ∈ (trimListed cs).getLast?, ¬Trails c) ∨
        ((∀ b ∈ utf8 cs, b ∈ whitespace) ∧ trimListed cs = cs) := by
  obtain ⟨w, w', heq, hw, hw', hne, hhead, hlast⟩ := exists_trimListed hcs
  have htext : utf8 cs = utf8 w ++ (utf8 (trimListed cs) ++ utf8 w') := by
    conv_lhs => rw [heq]
    rw [utf8_append, utf8_append]
  rw [← trimmed_utf8_iff hhead hlast]
  constructor
  · intro htrim
    rcases trim_cases (utf8 cs) with hall | ⟨v, t, v', htv, hv, hv', hne', ht⟩
    · -- Nothing is removed, so there is nothing around what is left.
      right
      rw [trimString_of_whitespace hall] at htrim
      have hlen := congrArg List.length htext
      rw [htrim, List.length_append, List.length_append] at hlen
      have hnil : w = [] := utf8_eq_nil_iff.1 (List.length_eq_zero_iff.1 (by omega))
      have hnil' : w' = [] := utf8_eq_nil_iff.1 (List.length_eq_zero_iff.1 (by omega))
      rw [hnil, hnil', List.nil_append, List.append_nil] at heq
      exact ⟨hall, heq.symm⟩
    · left
      rwa [← htrim, htv, trimString_append hv hv' hne' ht]
  · rintro (ht | ⟨hall, heq'⟩)
    · rw [htext]
      exact trimString_append (mem_whitespace_of_listed hw) (mem_whitespace_of_listed hw')
        (fun h => hne (utf8_eq_nil_iff.1 h)) ht
    · rw [trimString_of_whitespace hall, heq']

theorem trimString_utf8_iff_word : trimString (utf8 [' ', '\u3000', 'é', 'x', '\u2003']) = utf8 ['é', 'x'] :=
  (@trimString_utf8_iff [' ', '\u3000', 'é', 'x', '\u2003'] ⟨'x', by decide, by decide⟩).2 (.inl (by decide))

/-- Two of the three bytes of an ellipsis are removed, and the last one of a capital with a grave accent. -/
theorem trimString_not_utf8 : trimString (utf8 ['…']) = [0xA6] ∧ trimString (utf8 ['x', 'À']) = [ch 'x', 0xC3] ∧
    trimListed ['…'] = ['…'] ∧ trimListed ['x', 'À'] = ['x', 'À'] ∧
    trimString (utf8 ['…']) ≠ utf8 (trimListed ['…']) := by
  decide

end Cppnet.Util
