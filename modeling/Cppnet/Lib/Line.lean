import Mathlib.Data.List.Infix
import Mathlib.Tactic.Common

/-!
# Lines

Texts split by a delimiter `d`, such as the end of a line.

* `IsLine d l`: in `l` followed by `d`, the delimiter occurs only at the end, so
  that reading up to the first delimiter gives `l`. Every text with a delimiter
  in it starts with such a line (`exists_isLine`).
* `cutLine d s`: the first line of `s` and what is behind its delimiter, or all
  of `s` and nothing if it has no delimiter. It is defined as it is read, one
  element at a time, until what was read ends with the delimiter.
* `paragraph d s`: the lines of `s` up to the first empty one, and what is behind
  it; without an empty line, all lines (the last one without a delimiter), and
  `none`.
* `splitLines d s`: what is between the delimiters of `s`.
-/

namespace Lib

variable {α : Type*} {d l s r acc rest : List α}

/-- In `l ++ d`, the delimiter `d` occurs only at the end. -/
def IsLine (d l : List α) : Prop := ¬d <:+: l ++ d.dropLast

theorem IsLine.not_isInfix (h : IsLine d l) : ¬d <:+: l :=
  fun hd => h (hd.trans (List.infix_append [] l _))

/-- A text with a delimiter in it starts with a line. -/
theorem exists_isLine (hd : d ≠ []) (h : d <:+: s) : ∃ l r, s = l ++ d ++ r ∧ IsLine d l := by
  induction hn : s.length using Nat.strong_induction_on generalizing s with
  | h n ih =>
    obtain ⟨a, b, rfl⟩ := h
    by_cases ha : IsLine d a
    · exact ⟨a, b, rfl, ha⟩
    -- An earlier occurrence: it lies in what is before the last element of this one.
    rw [IsLine, not_not] at ha
    obtain ⟨l, r, hlr, hl⟩ := ih _ (by
      have := List.length_pos_iff.2 hd
      simp only [List.length_append, List.length_dropLast] at hn ⊢
      omega) ha rfl
    refine ⟨l, r ++ [d.getLast hd] ++ b, ?_, hl⟩
    calc a ++ d ++ b
        = a ++ (d.dropLast ++ [d.getLast hd]) ++ b := by rw [List.dropLast_append_getLast]
      _ = a ++ d.dropLast ++ ([d.getLast hd] ++ b) := by simp only [List.append_assoc]
      _ = l ++ d ++ (r ++ [d.getLast hd] ++ b) := by rw [hlr]; simp only [List.append_assoc]

/-- What is read before the end of the first delimiter has no delimiter at its end. -/
theorem IsLine.not_suffix_of_lt (hl : IsLine d l) (h : acc ++ rest = l ++ d ++ r)
    (hlt : acc.length < (l ++ d).length) : ¬d <:+ acc := by
  intro hs
  have hd : d ≠ [] := by
    rintro rfl
    exact hl (List.nil_infix)
  -- It is a front of the line with all but the last element of the delimiter.
  have hpre : acc <+: l ++ d.dropLast := by
    have hacc : acc <+: l ++ d ++ r := ⟨rest, h⟩
    refine List.prefix_of_prefix_length_le hacc ⟨[d.getLast hd] ++ r, ?_⟩ ?_
    · rw [← List.append_assoc, List.append_assoc l, List.dropLast_append_getLast]
    · simp only [List.length_append, List.length_dropLast] at hlt ⊢
      omega
  exact hl (hs.isInfix.trans hpre.isInfix)

section Cut

variable [DecidableEq α]

/-- `cutLine`, with what has been read already. -/
def cutLineAux (d : List α) : List α → List α → List α × List α
  | acc, [] => (if d <:+ acc then acc.take (acc.length - d.length) else acc, [])
  | acc, x :: rest =>
    if d <:+ acc then (acc.take (acc.length - d.length), x :: rest)
    else cutLineAux d (acc ++ [x]) rest

/-- The first line, and what is behind its delimiter. -/
def cutLine (d s : List α) : List α × List α := cutLineAux d [] s

theorem cutLineAux_of_suffix (h : d <:+ acc) :
    cutLineAux d acc rest = (acc.take (acc.length - d.length), rest) := by
  cases rest <;> simp [cutLineAux, h]

theorem cutLineAux_of_isLine (hl : IsLine d l) (h : acc ++ rest = l ++ d ++ r)
    (hle : acc.length ≤ (l ++ d).length) : cutLineAux d acc rest = (l, r) := by
  induction rest generalizing acc with
  | nil =>
    have hlen := congrArg List.length h
    have hacc : acc = l ++ d ∧ ([] : List α) = r :=
      List.append_inj h (by simp only [List.length_append, List.length_nil] at hlen hle ⊢; omega)
    rw [cutLineAux_of_suffix (hacc.1 ▸ List.suffix_append l d), hacc.1, ← hacc.2]
    simp
  | cons x rest ih =>
    rcases hle.lt_or_eq with hlt | heq
    · -- The delimiter of the line has not been read to its end.
      rw [cutLineAux, if_neg (hl.not_suffix_of_lt h hlt)]
      refine ih (by rw [← h]; simp) ?_
      rw [List.length_append, List.length_singleton]
      exact hlt
    · -- The line and its delimiter have been read, and nothing more.
      obtain ⟨rfl, hr⟩ := List.append_inj h heq
      rw [cutLineAux_of_suffix (List.suffix_append l d), hr]
      simp

theorem cutLineAux_of_no_end (h : ¬d <:+: acc ++ rest) :
    cutLineAux d acc rest = (acc ++ rest, []) := by
  induction rest generalizing acc with
  | nil =>
    rw [List.append_nil] at h ⊢
    rw [cutLineAux, if_neg fun hs => h hs.isInfix]
  | cons x rest ih =>
    rw [cutLineAux, if_neg fun hs => h (hs.isInfix.trans (List.prefix_append acc _).isInfix),
      ih (by rwa [List.append_assoc, List.singleton_append]), List.append_assoc,
      List.singleton_append]

/-- Cutting a text that starts with a line. -/
theorem cutLine_append (hl : IsLine d l) (r : List α) : cutLine d (l ++ d ++ r) = (l, r) :=
  cutLineAux_of_isLine hl rfl (Nat.zero_le _)

/-- Cutting a text without a delimiter. -/
theorem cutLine_of_no_end (h : ¬d <:+: s) : cutLine d s = (s, []) :=
  cutLineAux_of_no_end h

/-! ## Paragraphs -/

/-- `paragraph`, with what has been read already of the current line. -/
def paragraphAux (d : List α) : List α → List α → List (List α) × Option (List α)
  | acc, [] => (if acc = [] then [] else [acc], none)
  | acc, x :: rest =>
    if d <:+ acc ++ [x] then
      if acc ++ [x] = d then ([], some rest)
      else
        let p := paragraphAux d [] rest
        ((acc ++ [x]).take ((acc ++ [x]).length - d.length) :: p.1, p.2)
    else paragraphAux d (acc ++ [x]) rest

/-- The lines up to the first empty one, and what is behind it. -/
def paragraph (d s : List α) : List (List α) × Option (List α) := paragraphAux d [] s

theorem paragraphAux_of_no_end (h : ¬d <:+: acc ++ rest) :
    paragraphAux d acc rest = (if acc ++ rest = [] then [] else [acc ++ rest], none) := by
  induction rest generalizing acc with
  | nil => rw [paragraphAux, List.append_nil]
  | cons x rest ih =>
    have hx : acc ++ [x] <+: acc ++ x :: rest := ⟨rest, by simp⟩
    rw [paragraphAux, if_neg fun hs => h (hs.isInfix.trans hx.isInfix), ih (by simpa using h)]
    simp

theorem paragraphAux_of_isLine (hl : IsLine d l) (h : acc ++ rest = l ++ d ++ r)
    (hlt : acc.length < (l ++ d).length) :
    paragraphAux d acc rest =
      if l = [] then ([], some r) else (l :: (paragraph d r).1, (paragraph d r).2) := by
  induction rest generalizing acc with
  | nil =>
    have hlen := congrArg List.length h
    simp only [List.length_append, List.length_nil] at hlen hlt
    omega
  | cons x rest ih =>
    have hx : (acc ++ [x]) ++ rest = l ++ d ++ r := by rw [← h]; simp
    have hle : (acc ++ [x]).length ≤ (l ++ d).length := by
      rw [List.length_append, List.length_singleton]
      exact hlt
    rcases hle.lt_or_eq with hlt' | heq
    · rw [paragraphAux, if_neg (hl.not_suffix_of_lt hx hlt'), ih hx hlt']
    · obtain ⟨hacc, hr⟩ := List.append_inj hx heq
      rw [paragraphAux, hacc, if_pos (List.suffix_append l d), hr]
      by_cases hnil : l = []
      · rw [if_pos (by rw [hnil, List.nil_append]), if_pos hnil]
      · rw [if_neg (by simpa using hnil), if_neg hnil]
        simp [paragraph]

/-- A text without a delimiter is a last line, if it is not empty. -/
theorem paragraph_of_no_end (h : ¬d <:+: s) :
    paragraph d s = (if s = [] then [] else [s], none) :=
  paragraphAux_of_no_end h

/-- An empty line ends the paragraph. -/
theorem paragraph_blank (hd : d ≠ []) (r : List α) : paragraph d (d ++ r) = ([], some r) := by
  have hl : IsLine d [] := fun h => by
    have := h.length_le
    have := List.length_pos_iff.2 hd
    simp only [List.nil_append, List.length_dropLast] at *
    omega
  have hlt : ([] : List α).length < ([] ++ d).length := List.length_pos_iff.2 hd
  exact paragraphAux_of_isLine hl (r := r) rfl hlt

/-- A line that is not empty is followed by the rest of the paragraph. -/
theorem paragraph_line (hl : IsLine d l) (hne : l ≠ []) (r : List α) :
    paragraph d (l ++ d ++ r) = (l :: (paragraph d r).1, (paragraph d r).2) := by
  have hlt : ([] : List α).length < (l ++ d).length :=
    List.length_pos_iff.2 (List.append_ne_nil_of_left_ne_nil hne d)
  rw [paragraph, paragraphAux_of_isLine hl (List.nil_append (l ++ d ++ r)) hlt, if_neg hne]

/-- A line and its rest are not longer than the text. -/
theorem length_cutLine_le (hd : d ≠ []) (s : List α) :
    (cutLine d s).1.length + (cutLine d s).2.length ≤ s.length := by
  by_cases h : d <:+: s
  · obtain ⟨l, r, rfl, hl⟩ := exists_isLine hd h
    rw [cutLine_append hl]
    simp only [List.length_append]
    omega
  · rw [cutLine_of_no_end h]
    exact le_rfl

/-- A paragraph, line by line. -/
theorem paragraph_eq (hd : d ≠ []) (s : List α) :
    paragraph d s =
      if (cutLine d s).1 = [] then ([], if d <:+: s then some (cutLine d s).2 else none)
      else ((cutLine d s).1 :: (paragraph d (cutLine d s).2).1, (paragraph d (cutLine d s).2).2) := by
  by_cases h : d <:+: s
  · obtain ⟨l, r, rfl, hl⟩ := exists_isLine hd h
    rw [cutLine_append hl, if_pos h]
    dsimp only
    split_ifs with hnil
    · rw [hnil, List.nil_append, paragraph_blank hd]
    · exact paragraph_line hl hnil r
  · rw [cutLine_of_no_end h, if_neg h, paragraph_of_no_end h]
    dsimp only
    split_ifs with hnil
    · rfl
    · rw [paragraph_of_no_end fun hd' => hd (List.infix_nil.1 hd'), if_pos rfl]

/-- There is an empty line only if there is a line that ends. -/
theorem isInfix_of_isSome_paragraph (h : (paragraph d s).2.isSome) : d <:+: s := by
  by_contra hs
  rw [paragraph_of_no_end hs] at h
  cases h

/-- There is an empty line behind the first one only if that one ends. -/
theorem isInfix_of_isSome_paragraph_cutLine (hd : d ≠ [])
    (h : (paragraph d (cutLine d s).2).2.isSome) : d <:+: s := by
  by_contra hs
  rw [cutLine_of_no_end hs] at h
  exact hd (List.infix_nil.1 (isInfix_of_isSome_paragraph h))

/-- Lines that are not empty, then an empty one. -/
theorem paragraph_lines (hd : d ≠ []) {ls : List (List α)} (hls : ∀ l ∈ ls, IsLine d l ∧ l ≠ [])
    (r : List α) : paragraph d (ls.flatMap (· ++ d) ++ (d ++ r)) = (ls, some r) := by
  induction ls with
  | nil => exact paragraph_blank hd r
  | cons l ls ih =>
    obtain ⟨hl, hne⟩ := hls l List.mem_cons_self
    rw [List.flatMap_cons, List.append_assoc, paragraph_line hl hne,
      ih fun l' hl' => hls l' (List.mem_cons_of_mem l hl')]

/-- A paragraph that ends is made of lines that are not empty, up to an empty one. -/
theorem eq_of_paragraph_eq_some (hd : d ≠ []) {ls : List (List α)}
    (h : paragraph d s = (ls, some r)) :
    s = ls.flatMap (· ++ d) ++ (d ++ r) ∧ ∀ l ∈ ls, IsLine d l ∧ l ≠ [] := by
  induction ls generalizing s with
  | nil =>
    -- A first line that is not empty would have been among the lines.
    obtain ⟨l, r', rfl, hl⟩ := exists_isLine hd (isInfix_of_isSome_paragraph (by rw [h]; rfl))
    by_cases hnil : l = []
    · rw [hnil, List.nil_append, paragraph_blank hd] at h
      cases h
      exact ⟨by rw [hnil]; rfl, by simp⟩
    · rw [paragraph_line hl hnil] at h
      exact absurd (Prod.mk.inj h).1 (List.cons_ne_nil _ _)
  | cons l ls ih =>
    obtain ⟨l', r', rfl, hl⟩ := exists_isLine hd (isInfix_of_isSome_paragraph (by rw [h]; rfl))
    by_cases hnil : l' = []
    · rw [hnil, List.nil_append, paragraph_blank hd] at h
      exact absurd (Prod.mk.inj h).1.symm (List.cons_ne_nil _ _)
    · rw [paragraph_line hl hnil, Prod.mk.injEq, List.cons.injEq] at h
      obtain ⟨⟨rfl, hls⟩, hr⟩ := h
      obtain ⟨hr', hlines⟩ := ih (Prod.ext hls hr)
      refine ⟨?_, List.forall_mem_cons.2 ⟨⟨hl, hnil⟩, hlines⟩⟩
      rw [List.flatMap_cons, List.append_assoc (l' ++ d), ← hr']

/-! ## Splitting -/

/-- `splitLines`, of a text no longer than `n`. -/
def splitLinesAux (d : List α) : ℕ → List α → List (List α)
  | 0, s => [s]
  | n + 1, s =>
    if d <:+: s then (cutLine d s).1 :: splitLinesAux d n (cutLine d s).2 else [s]

/-- The parts of a text between its delimiters. -/
def splitLines (d s : List α) : List (List α) := splitLinesAux d s.length s

theorem splitLinesAux_of_no_end (h : ¬d <:+: s) (n : ℕ) : splitLinesAux d n s = [s] := by
  cases n with
  | zero => rfl
  | succ n => rw [splitLinesAux, if_neg h]

theorem splitLinesAux_eq (hd : d ≠ []) {n : ℕ} (hn : s.length ≤ n) :
    splitLinesAux d n s = splitLines d s := by
  induction hm : s.length using Nat.strong_induction_on generalizing s n with
  | h m ih =>
    by_cases h : d <:+: s
    · obtain ⟨l, r, rfl, hl⟩ := exists_isLine hd h
      have hpos := List.length_pos_iff.2 hd
      have hlen : (l ++ d ++ r).length = l.length + d.length + r.length := by
        simp only [List.length_append]
      obtain ⟨n, rfl⟩ := Nat.exists_eq_add_one_of_ne_zero (show n ≠ 0 by omega)
      obtain ⟨k, hk⟩ := Nat.exists_eq_add_one_of_ne_zero (show (l ++ d ++ r).length ≠ 0 by omega)
      -- Both cut the same line off, and what is behind it is shorter.
      rw [splitLines, hk, splitLinesAux, splitLinesAux, if_pos h, if_pos h, cutLine_append hl,
        ih r.length (by omega) (by omega) rfl, ih r.length (by omega) (by omega) rfl]
    · rw [splitLines, splitLinesAux_of_no_end h, splitLinesAux_of_no_end h]

/-- A text without a delimiter is one part. -/
theorem splitLines_of_no_end (h : ¬d <:+: s) : splitLines d s = [s] :=
  splitLinesAux_of_no_end h _

/-- A line, and the parts behind it. -/
theorem splitLines_line (hd : d ≠ []) (hl : IsLine d l) (r : List α) :
    splitLines d (l ++ d ++ r) = l :: splitLines d r := by
  have hpos := List.length_pos_iff.2 hd
  have hlen : (l ++ d ++ r).length = l.length + d.length + r.length := by
    simp only [List.length_append]
  obtain ⟨k, hk⟩ := Nat.exists_eq_add_one_of_ne_zero (show (l ++ d ++ r).length ≠ 0 by omega)
  have hr : r.length ≤ k := by omega
  rw [splitLines, hk, splitLinesAux, if_pos ⟨l, r, rfl⟩, cutLine_append hl,
    splitLinesAux_eq hd hr]

/-- Parts have no delimiter in them, and make up the text. -/
theorem splitLines_spec (hd : d ≠ []) (s : List α) :
    (splitLines d s).flatMap (· ++ d) = s ++ d ∧ ∀ l ∈ splitLines d s, ¬d <:+: l := by
  induction hm : s.length using Nat.strong_induction_on generalizing s with
  | h m ih =>
    by_cases h : d <:+: s
    · obtain ⟨l, r, rfl, hl⟩ := exists_isLine hd h
      have hpos := List.length_pos_iff.2 hd
      obtain ⟨hflat, hparts⟩ := ih r.length
        (by simp only [List.length_append] at hm; omega) r rfl
      rw [splitLines_line hd hl, List.flatMap_cons, hflat, List.append_assoc (l ++ d)]
      exact ⟨rfl, List.forall_mem_cons.2 ⟨hl.not_isInfix, hparts⟩⟩
    · rw [splitLines_of_no_end h]
      exact ⟨by simp, by simpa using h⟩

/-- A paragraph ends behind lines if and only if none of them is empty. -/
theorem paragraph_lines_eq_iff (hd : d ≠ []) {ls : List (List α)} (hls : ∀ l ∈ ls, IsLine d l)
    (r : List α) :
    ∃ ls' r', paragraph d (ls.flatMap (· ++ d) ++ (d ++ r)) = (ls', some r') ∧ ls' <+: ls ∧
      (r' = r ↔ [] ∉ ls) ∧ ([] ∉ ls → ls' = ls) := by
  by_cases hnil : [] ∈ ls
  · -- The first empty line ends it, with at least one more behind it.
    obtain ⟨ls₁, ls₂, rfl, hls₁⟩ := List.eq_append_cons_of_mem hnil
    have hne : ∀ l ∈ ls₁, IsLine d l ∧ l ≠ [] := fun l hl =>
      ⟨hls l (List.mem_append_left _ hl), fun h => hls₁ (h ▸ hl)⟩
    refine ⟨ls₁, ls₂.flatMap (· ++ d) ++ (d ++ r), ?_, List.prefix_append _ _, ?_, fun h =>
      absurd hnil h⟩
    · rw [← paragraph_lines hd hne]
      simp
    · refine iff_of_false (fun h => ?_) (not_not.2 hnil)
      have hlen := congrArg List.length h
      have hpos := List.length_pos_iff.2 hd
      simp only [List.length_append] at hlen
      omega
  · have hne : ∀ l ∈ ls, IsLine d l ∧ l ≠ [] := fun l hl => ⟨hls l hl, fun h => hnil (h ▸ hl)⟩
    exact ⟨ls, r, paragraph_lines hd hne r, List.prefix_rfl, iff_of_true rfl hnil, fun _ => rfl⟩

end Cut

end Lib
