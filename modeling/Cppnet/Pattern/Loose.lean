import Cppnet.Bytes
import Mathlib.Data.List.Infix

/-!
# Texts that are read to their end

Parentheses and brackets that are closed as the parser of patterns does it: a parenthesis that is closed is the last
open one, whatever brackets were opened behind it, and the same holds for brackets; a bar closes all brackets that
were opened behind the last open parenthesis; and at the end, brackets may be open.

* `openStep`, `reads`: what is open, as a stack;
* `Loose`: a grammar of the texts that are read to their end;
* `loose_iff_reads`: the two agree. A text is taken apart at what is open (`Parted`).
-/

namespace Cppnet.Pattern

/-! ## Open parentheses and brackets -/

/-- Something that is opened. -/
inductive Opener
  | paren
  | bracket
  deriving DecidableEq

namespace Opener

/-- How it is opened. -/
def start : Opener → Byte
  | paren => ch '('
  | bracket => ch '['

/-- How it is closed. -/
def stop : Opener → Byte
  | paren => ch ')'
  | bracket => ch ']'

def other : Opener → Opener
  | paren => bracket
  | bracket => paren

theorem eq_or_eq_other (o o' : Opener) : o' = o ∨ o' = o.other := by
  cases o <;> cases o' <;> decide

/-- Closes the last one of a kind, and gives up what was opened behind it. -/
def close (o : Opener) : List Opener → Option (List Opener)
  | [] => none
  | top :: st => if top = o then some st else close o st

theorem close_eq_some {o : Opener} {st st' : List Opener} :
    close o st = some st' ↔ ∃ above, st = above ++ o :: st' ∧ ∀ x ∈ above, x = o.other := by
  induction st with
  | nil => simp [close]
  | cons top st ih =>
    rw [close]
    split_ifs with htop
    · subst htop
      rw [Option.some_inj]
      constructor
      · rintro rfl
        exact ⟨[], rfl, List.forall_mem_nil _⟩
      · rintro ⟨above, heq, habove⟩
        cases above with
        | nil => exact (List.cons.inj heq).2
        | cons x above =>
          have hx := habove x List.mem_cons_self
          rw [← (List.cons.inj heq).1] at hx
          cases top <;> cases hx
    · rw [ih]
      constructor
      · rintro ⟨above, rfl, habove⟩
        exact ⟨top :: above, rfl, List.forall_mem_cons.2 ⟨(eq_or_eq_other o top).resolve_left htop, habove⟩⟩
      · rintro ⟨above, heq, habove⟩
        cases above with
        | nil => exact absurd (List.cons.inj heq).1 htop
        | cons x above => exact ⟨above, (List.cons.inj heq).2, (List.forall_mem_cons.1 habove).2⟩

end Opener

open Opener

/-- What is open after another character. -/
def openStep (st : List Opener) (c : Byte) : Option (List Opener) :=
  if c = ch '(' then some (paren :: st)
  else if c = ch ')' then close paren st
  else if c = ch '|' then some (st.dropWhile (· = bracket))
  else if c = ch '[' then some (bracket :: st)
  else if c = ch ']' then close bracket st
  else some st

/-- What is open after a text. -/
def reads (st : List Opener) (text : Bytes) : Option (List Opener) := text.foldlM openStep st

/-- A character that opens and closes nothing. -/
def Neutral (c : Byte) : Prop := c ∉ sv "()|[]"

instance (c : Byte) : Decidable (Neutral c) := inferInstanceAs (Decidable (¬_))

@[simp] theorem openStep_start (st : List Opener) (o : Opener) : openStep st o.start = some (o :: st) := by
  cases o <;> rfl

@[simp] theorem openStep_stop (st : List Opener) (o : Opener) : openStep st o.stop = close o st := by
  cases o <;> rfl

@[simp] theorem openStep_bar (st : List Opener) : openStep st (ch '|') = some (st.dropWhile (· = bracket)) := rfl

theorem neutral_iff {c : Byte} :
    Neutral c ↔ c ≠ ch '(' ∧ c ≠ ch ')' ∧ c ≠ ch '|' ∧ c ≠ ch '[' ∧ c ≠ ch ']' := by
  simp [Neutral, sv]

theorem Neutral.openStep {c : Byte} (hc : Neutral c) (st : List Opener) : openStep st c = some st := by
  obtain ⟨h₁, h₂, h₃, h₄, h₅⟩ := neutral_iff.1 hc
  rw [Pattern.openStep, if_neg h₁, if_neg h₂, if_neg h₃, if_neg h₄, if_neg h₅]

theorem char_cases (c : Byte) : (∃ o : Opener, c = o.start) ∨ (∃ o : Opener, c = o.stop) ∨ c = ch '|' ∨ Neutral c := by
  by_cases hc : Neutral c
  · exact .inr (.inr (.inr hc))
  rw [Neutral, not_not] at hc
  have hcases : c = ch '(' ∨ c = ch ')' ∨ c = ch '|' ∨ c = ch '[' ∨ c = ch ']' := by simpa [sv] using hc
  rcases hcases with h | h | h | h | h
  · exact .inl ⟨paren, h⟩
  · exact .inr (.inl ⟨paren, h⟩)
  · exact .inr (.inr (.inl h))
  · exact .inl ⟨bracket, h⟩
  · exact .inr (.inl ⟨bracket, h⟩)

theorem reads_append (st : List Opener) (text text' : Bytes) :
    reads st (text ++ text') = (reads st text).bind fun st => reads st text' := List.foldlM_append

theorem reads_start (st : List Opener) (o : Opener) (text : Bytes) :
    reads st (o.start :: text) = reads (o :: st) text := by
  rw [reads, List.foldlM_cons, openStep_start]
  rfl

theorem reads_concat_eq_some {st st' : List Opener} {text : Bytes} {c : Byte} :
    reads st (text ++ [c]) = some st' ↔ ∃ st₁, reads st text = some st₁ ∧ openStep st₁ c = some st' := by
  rw [reads_append, Option.bind_eq_some_iff]
  simp [reads]

/-! ## The grammar -/

/-- The texts that are read to their end, outside of brackets (`paren`) or directly in brackets (`bracket`): outside
    of brackets, a bracket may stay open, and in brackets, a parenthesis; and there is no bar directly in brackets,
    unless a parenthesis stays open before it. -/
inductive Loose : Opener → Bytes → Prop
  | nil (o : Opener) : Loose o []
  | neutral {o : Opener} {text : Bytes} {c : Byte} : Loose o text → Neutral c → Loose o (text ++ [c])
  | closed {o o' : Opener} {text text' : Bytes} : Loose o text → Loose o' text' →
      Loose o (text ++ o'.start :: text' ++ [o'.stop])
  | left {o : Opener} {text : Bytes} : Loose o text → Loose o (text ++ [o.other.start])
  | bar {text : Bytes} : Loose paren text → Loose paren (text ++ [ch '|'])
  | barBehind {text text' : Bytes} : Loose bracket text → Loose paren text' →
      Loose bracket (text ++ paren.start :: text' ++ [ch '|'])

/-- Brackets that are open above what is not a bracket are given up at a bar. -/
theorem dropWhile_bracket {above st : List Opener} (habove : ∀ x ∈ above, x = bracket)
    (hst : st.head? ≠ some bracket) : (above ++ st).dropWhile (· = bracket) = st := by
  rw [List.dropWhile_append_of_pos fun x hx => decide_eq_true (habove x hx)]
  cases st with
  | nil => rfl
  | cons x st => exact List.dropWhile_cons_of_neg (by simpa using hst)

theorem exists_dropWhile_bracket (st : List Opener) : ∃ above st', st = above ++ st' ∧
    st.dropWhile (· = bracket) = st' ∧ (∀ x ∈ above, x = bracket) ∧ st'.head? ≠ some bracket := by
  induction st with
  | nil => exact ⟨[], [], rfl, rfl, List.forall_mem_nil _, by simp⟩
  | cons x st ih =>
    cases x with
    | paren => exact ⟨[], paren :: st, rfl, rfl, List.forall_mem_nil _, by simp⟩
    | bracket =>
      obtain ⟨above, st', rfl, hdrop, habove, hhead⟩ := ih
      exact ⟨bracket :: above, st', rfl, hdrop, List.forall_mem_cons.2 ⟨rfl, habove⟩, hhead⟩

/-- A text of the grammar is read on any stack, and nothing of this stack is closed; what is left open above it is of
    the other kind. Outside of brackets, the stack must not end with a bracket, as a bar would close it. -/
theorem Loose.reads {o : Opener} {text : Bytes} (h : Loose o text) {st : List Opener}
    (hst : o = paren → st.head? ≠ some bracket) :
    ∃ above, Pattern.reads st text = some (above ++ st) ∧ ∀ x ∈ above, x = o.other := by
  induction h generalizing st with
  | nil o => exact ⟨[], rfl, List.forall_mem_nil _⟩
  | neutral _ hc ih =>
    obtain ⟨above, hreads, habove⟩ := ih hst
    exact ⟨above, reads_concat_eq_some.2 ⟨_, hreads, hc.openStep _⟩, habove⟩
  | @closed o o' text text' _ _ ih ih' =>
    obtain ⟨above, hreads, habove⟩ := ih hst
    obtain ⟨above', hreads', habove'⟩ := @ih' (o' :: (above ++ st)) (by rintro rfl; simp)
    refine ⟨above, reads_concat_eq_some.2 ⟨above' ++ o' :: (above ++ st), ?_, ?_⟩, habove⟩
    · rw [reads_append, hreads, Option.bind_some, reads_start, hreads']
    · rw [openStep_stop, close_eq_some]
      exact ⟨above', rfl, habove'⟩
  | @left o text _ ih =>
    obtain ⟨above, hreads, habove⟩ := ih hst
    exact ⟨o.other :: above, reads_concat_eq_some.2 ⟨_, hreads, openStep_start _ _⟩,
      List.forall_mem_cons.2 ⟨rfl, habove⟩⟩
  | @bar text _ ih =>
    obtain ⟨above, hreads, habove⟩ := ih hst
    refine ⟨[], reads_concat_eq_some.2 ⟨_, hreads, ?_⟩, List.forall_mem_nil _⟩
    rw [openStep_bar, dropWhile_bracket habove (hst rfl)]
    rfl
  | @barBehind text text' _ _ ih ih' =>
    obtain ⟨above, hreads, habove⟩ := ih hst
    obtain ⟨above', hreads', habove'⟩ := @ih' (paren :: (above ++ st)) (by simp)
    refine ⟨paren :: above, reads_concat_eq_some.2 ⟨above' ++ paren :: (above ++ st), ?_, ?_⟩,
      List.forall_mem_cons.2 ⟨rfl, habove⟩⟩
    · rw [reads_append, hreads, Option.bind_some, reads_start, hreads']
    · rw [openStep_bar, dropWhile_bracket habove' (by simp)]
      rfl

/-! ## Taking a text apart -/

/-- What was read, taken apart at what is open: it is of the grammar as a whole, if only brackets are open, and from a
    parenthesis or bracket on that is open, if only such of the other kind are open behind it. -/
def Parted (text : Bytes) (st : List Opener) : Prop :=
  ((∀ x ∈ st, x = bracket) → Loose paren text) ∧
    ∀ (o : Opener) (above st' : List Opener), st = above ++ o :: st' → (∀ x ∈ above, x = o.other) →
      ∃ u v, text = u ++ o.start :: v ∧ reads [] u = some st' ∧ Loose o v

namespace Parted

variable {text : Bytes} {st : List Opener}

theorem nil : Parted [] [] := ⟨fun _ => .nil paren, fun o above st' heq => by simp at heq⟩

theorem neutral (h : Parted text st) {c : Byte} (hc : Neutral c) : Parted (text ++ [c]) st := by
  refine ⟨fun hst => (h.1 hst).neutral hc, fun o above st' heq habove => ?_⟩
  obtain ⟨u, v, rfl, hu, hv⟩ := h.2 o above st' heq habove
  exact ⟨u, v ++ [c], by simp, hu, hv.neutral hc⟩

/-- Something is opened, above what is open. -/
theorem start (h : Parted text st) (hreads : reads [] text = some st) (o : Opener) :
    Parted (text ++ [o.start]) (o :: st) := by
  refine ⟨fun hst => ?_, fun o' above st' heq habove => ?_⟩
  · rw [List.forall_mem_cons] at hst
    obtain ⟨rfl, hst⟩ := hst
    exact (h.1 hst).left
  · cases above with
    | nil =>
      obtain ⟨rfl, rfl⟩ := List.cons.inj heq
      exact ⟨text, [], rfl, hreads, .nil o⟩
    | cons x above =>
      obtain ⟨rfl, rfl⟩ := List.cons.inj heq
      rw [List.forall_mem_cons] at habove
      obtain ⟨rfl, habove⟩ := habove
      obtain ⟨u, v, rfl, hu, hv⟩ := h.2 o' above st' rfl habove
      exact ⟨u, v ++ [o'.other.start], by simp, hu, hv.left⟩

/-- Something is closed that was opened behind `u`. -/
theorem stop {u v : Bytes} (h : Parted u st) {o : Opener} (hv : Loose o v) :
    Parted (u ++ o.start :: v ++ [o.stop]) st := by
  refine ⟨fun hst => (h.1 hst).closed hv, fun o' above st' heq habove => ?_⟩
  obtain ⟨u', v', rfl, hu', hv'⟩ := h.2 o' above st' heq habove
  exact ⟨u', v' ++ o.start :: v ++ [o.stop], by simp, hu', hv'.closed hv⟩

/-- A bar closes the brackets that are open above a parenthesis, or above nothing. -/
theorem bar {above : List Opener} (h : Parted text (above ++ st)) (habove : ∀ x ∈ above, x = bracket)
    (hhead : st.head? ≠ some bracket)
    (hbefore : ∀ u v st', text = u ++ paren.start :: v → reads [] u = some st' → Parted u st') :
    Parted (text ++ [ch '|']) st := by
  refine ⟨fun hst => ?_, fun o above' st' heq habove' => ?_⟩
  · exact (h.1 fun x hx => (List.mem_append.1 hx).elim (habove x) (hst x)).bar
  · subst heq
    cases above' with
    | nil =>
      cases o with
      | paren =>
        obtain ⟨u, v, rfl, hu, hv⟩ := h.2 paren above st' rfl habove
        exact ⟨u, v ++ [ch '|'], by simp, hu, hv.bar⟩
      | bracket => simp at hhead
    | cons x above' =>
      rw [List.forall_mem_cons] at habove'
      obtain ⟨rfl, habove'⟩ := habove'
      cases o with
      | paren => simp [Opener.other] at hhead
      | bracket =>
        -- The parenthesis stays open: what was read before it is in the bracket, too.
        obtain ⟨u, v, rfl, hu, hv⟩ := h.2 paren above (above' ++ bracket :: st') rfl habove
        obtain ⟨u', v', rfl, hu', hv'⟩ := (hbefore u v _ rfl hu).2 bracket above' st' rfl habove'
        exact ⟨u', v' ++ paren.start :: v ++ [ch '|'], by simp, hu', hv'.barBehind hv⟩

end Parted

/-- Every text that is read is taken apart so, by induction on its length. -/
theorem parted_of_reads {text : Bytes} {st : List Opener} (h : reads [] text = some st) : Parted text st := by
  induction hn : text.length using Nat.strong_induction_on generalizing text st with
  | _ n ih =>
    subst hn
    rcases List.eq_nil_or_concat text with rfl | ⟨text, c, rfl⟩
    · cases h
      exact .nil
    rw [List.concat_eq_append] at h ih ⊢
    obtain ⟨st₁, hreads, hstep⟩ := reads_concat_eq_some.1 h
    have hparted : Parted text st₁ := ih text.length (by simp) hreads rfl
    rcases char_cases c with ⟨o, rfl⟩ | ⟨o, rfl⟩ | rfl | hc
    · rw [openStep_start, Option.some_inj] at hstep
      subst hstep
      exact hparted.start hreads o
    · rw [openStep_stop, close_eq_some] at hstep
      obtain ⟨above, rfl, habove⟩ := hstep
      obtain ⟨u, v, rfl, hu, hv⟩ := hparted.2 o above st rfl habove
      exact (ih u.length (by simp) hu rfl).stop hv
    · rw [openStep_bar, Option.some_inj] at hstep
      obtain ⟨above, st₂, rfl, hdrop, habove, hhead⟩ := exists_dropWhile_bracket st₁
      rw [hdrop] at hstep
      subst hstep
      refine hparted.bar habove hhead fun u v st' htext hu => ih u.length ?_ hu rfl
      simp [htext]
    · rw [hc.openStep, Option.some_inj] at hstep
      subst hstep
      exact hparted.neutral hc

/-- The texts of the grammar are those that are read to their end, with no parenthesis open. -/
theorem loose_iff_reads {text : Bytes} :
    Loose paren text ↔ ∃ st, reads [] text = some st ∧ ∀ x ∈ st, x = bracket := by
  constructor
  · intro h
    obtain ⟨above, hreads, habove⟩ := @Loose.reads paren text h [] (by simp)
    rw [List.append_nil] at hreads
    exact ⟨above, hreads, habove⟩
  · rintro ⟨st, hreads, hst⟩
    exact (parted_of_reads hreads).1 hst

end Cppnet.Pattern
