import Cppnet.Io.Readline

/-!
# The lines of a stream

`readline`, called again and again: each call returns the first line of what is left, and leaves what is behind its
end (`readline_cuts`). With the end of line between them, the lines make up the stream, whatever the parent's reads
and the capacity are (`readlines_source`). A call at the end of the stream returns an empty line, so that a stream
that ends in an end of line has an empty one as its last.
-/

namespace Cppnet.Io

open Lib

section Model

variable {σ : Type*} [Reader σ Byte ErrorCondition]

/-- The lines of `n` calls of `readline` in a row. -/
def readlines : ℕ → BufferedReader σ → Bytes → Option (List (Except ErrorCondition Bytes) × BufferedReader σ)
  | 0, reader, _ => some ([], reader)
  | n + 1, reader, endOfLine => do
    let (line, reader) ← readline reader endOfLine
    let (lines, reader) ← readlines n reader endOfLine
    some (line :: lines, reader)

end Model

/-- The line in front of the first end of line of `s`, and `rest` behind it; or all of `s`, and nothing. -/
def Cuts (eol s line rest : Bytes) : Prop :=
  IsLine eol line ∧ s = line ++ eol ++ rest ∨ ¬eol <:+: s ∧ line = s ∧ rest = []

/-- The lines, with an end between them, and possibly empty ones behind them. -/
def Rejoins (eol : Bytes) (lines : List Bytes) (s : Bytes) : Prop :=
  ∃ ls k, ls ≠ [] ∧ lines = ls ++ List.replicate k [] ∧ eol.intercalate ls = s

section Lines

variable {eol s l rest : Bytes} {lines : List Bytes}

/-- One line more in front. -/
theorem Rejoins.cons (h : Rejoins eol lines rest) (l : Bytes) : Rejoins eol (l :: lines) (l ++ eol ++ rest) := by
  obtain ⟨ls, k, hne, rfl, rfl⟩ := h
  exact ⟨l :: ls, k, List.cons_ne_nil _ _, rfl, List.intercalate_cons_of_ne_nil hne⟩

theorem Rejoins.last (eol s : Bytes) (n : ℕ) : Rejoins eol (s :: List.replicate n []) s :=
  ⟨[s], n, List.cons_ne_nil _ _, rfl, List.intercalate_singleton⟩

end Lines

section Ready

variable {σ : Type*} [Reader σ Byte ErrorCondition] [LawfulReader σ] [PromptReader σ] {r : BufferedReader σ}
  {eol : Bytes}

/-- What a call returns, and what it leaves. -/
theorem readline_cuts (hr : r.Ready) (hne : eol ≠ []) :
    ∃ line r', readline r eol = some (.ok line, r') ∧ r'.Ready ∧
      Cuts eol (Reader.content r) line (Reader.content r') := by
  obtain ⟨r', hline, hr', hc, -⟩ := readline_ready hr hne
  refine ⟨_, r', hline, hr', ?_⟩
  rw [hc]
  by_cases heol : eol <:+: Reader.content r
  · obtain ⟨l, rest, hs, hl⟩ := exists_isLine hne heol
    rw [hs, cutLine_append hl]
    exact .inl ⟨hl, rfl⟩
  · rw [cutLine_of_no_end heol]
    exact .inr ⟨heol, rfl, rfl⟩

/-- At the end, every line is empty. -/
theorem readlines_end (hr : r.Ready) (hne : eol ≠ []) (hc : Reader.content r = []) (n : ℕ) :
    ∃ r', readlines n r eol = some (List.replicate n (.ok []), r') ∧ r'.Ready ∧ Reader.content r' = [] := by
  induction n generalizing r with
  | zero => exact ⟨r, rfl, hr, hc⟩
  | succ n ih =>
    obtain ⟨line, r₁, hline, hr₁, hcuts⟩ := readline_cuts hr hne
    have hnil : line = [] ∧ Reader.content r₁ = [] := by
      rw [hc] at hcuts
      rcases hcuts with ⟨-, hcuts⟩ | ⟨-, rfl, hcuts⟩
      · simp [hne] at hcuts
      · exact ⟨rfl, hcuts⟩
    obtain ⟨r', hlines, hr', hc'⟩ := ih hr₁ hnil.2
    refine ⟨r', ?_, hr', hc'⟩
    simp only [readlines, hline, hlines, hnil.1, Option.bind_eq_bind, Option.bind_some, List.replicate_succ]

/-- The lines that were read, and what is left, make up what there was. More calls than there are bytes come to the
    end of it. -/
theorem readlines_ready (hr : r.Ready) (hne : eol ≠ []) (n : ℕ) :
    ∃ lines r', readlines n r eol = some (lines.map .ok, r') ∧ r'.Ready ∧
      (lines.flatMap (· ++ eol) ++ Reader.content r' = Reader.content r ∧ n ≤ (Reader.content r).length ∨
        Reader.content r' = [] ∧ Rejoins eol lines (Reader.content r)) := by
  induction n generalizing r with
  | zero => exact ⟨[], r, rfl, hr, .inl ⟨rfl, Nat.zero_le _⟩⟩
  | succ n ih =>
    obtain ⟨line, r₁, hline, hr₁, ⟨hl, hs⟩ | ⟨-, rfl, hc₁⟩⟩ := readline_cuts hr hne
    · obtain ⟨lines, r', hlines, hr', hrest⟩ := ih hr₁
      refine ⟨line :: lines, r', ?_, hr', ?_⟩
      · simp only [readlines, hline, hlines, Option.bind_eq_bind, Option.bind_some, List.map_cons]
      · rcases hrest with ⟨hflat, hlen⟩ | ⟨hc', hjoin⟩
        · left
          have hpos := List.length_pos_iff.2 hne
          rw [List.flatMap_cons, List.append_assoc, hflat, hs]
          simp only [List.length_append, true_and]
          omega
        · rw [hs]
          exact .inr ⟨hc', hjoin.cons line⟩
    · -- The last line: those behind it are empty.
      obtain ⟨r', hlines, hr', hc'⟩ := readlines_end hr₁ hne hc₁ n
      refine ⟨Reader.content r :: List.replicate n [], r', ?_, hr', .inr ⟨hc', Rejoins.last eol _ n⟩⟩
      simp only [readlines, hline, hlines, Option.bind_eq_bind, Option.bind_some, List.map_cons, List.map_replicate]

end Ready

/-- On every stream, with any reads of the parent that return a byte while there is one: after any number of calls,
    the next one returns what is in front of the first end of line and leaves what is behind it, or returns all if
    there is none. The lines with their ends and what is left are the stream, until a call comes to the end of it;
    then the lines with an end between them are, and no more than empty lines follow. -/
theorem readlines_source (s : Source) (capacity : ℕ) (eol : Bytes) (hs : s.Prompt) (hcapacity : 0 < capacity)
    (hne : eol ≠ []) (n : ℕ) :
    ∃ lines r, readlines n (BufferedReader.new s capacity) eol = some (lines.map .ok, r) ∧
      (∃ line r', readline r eol = some (.ok line, r') ∧ Cuts eol (Reader.content r) line (Reader.content r')) ∧
      (lines.flatMap (· ++ eol) ++ Reader.content r = s.pending ∨
        Reader.content r = [] ∧ Rejoins eol lines s.pending) ∧
      (s.pending.length < n → Rejoins eol lines s.pending) := by
  have hready := BufferedReader.ready_source hs hcapacity
  obtain ⟨lines, r, hlines, hr, hjoin⟩ := readlines_ready hready hne n
  obtain ⟨line, r', hline, -, hcuts⟩ := readline_cuts hr hne
  refine ⟨lines, r, hlines, ⟨line, r', hline, hcuts⟩, hjoin.imp_left And.left, fun hlt => ?_⟩
  rcases hjoin with ⟨-, hle⟩ | ⟨-, hjoin⟩
  · exact absurd hlt (Nat.not_lt.2 hle)
  · exact hjoin

/-- Two lines, with an end of line that comes in two reads, and a carriage return in front of it. -/
theorem readlines_source_two :
    ∃ lines r, readlines 8 (.new (⟨sv "a\r" ++ crlf ++ sv "b", [⟨3, none⟩], none⟩ : Source) 2) crlf =
        some (lines.map .ok, r) ∧
      (∃ line r', readline r crlf = some (.ok line, r') ∧ Cuts crlf (Reader.content r) line (Reader.content r')) ∧
      (lines.flatMap (· ++ crlf) ++ Reader.content r = sv "a\r" ++ crlf ++ sv "b" ∨
        Reader.content r = [] ∧ Rejoins crlf lines (sv "a\r" ++ crlf ++ sv "b")) ∧
      ((sv "a\r" ++ crlf ++ sv "b").length < 8 → Rejoins crlf lines (sv "a\r" ++ crlf ++ sv "b")) :=
  readlines_source _ _ _ (by decide) (by decide) (by decide) 8

end Cppnet.Io
