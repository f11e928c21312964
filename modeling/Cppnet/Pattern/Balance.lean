import Cppnet.Pattern.Loose
import Cppnet.Pattern.Parse

/-!
# Patterns that are accepted

Of the operators on the stack of the parser, only the open parentheses and brackets matter (`openers`), and of the
pattern only the operators that do not stand right behind a literal (`seen`), as the others are passed over.

* `parse_throws_iff`: `expr::parse` throws if and only if what is seen of the pattern is not read to its end;
* `parse_balanced_of_tidy`: it throws for exactly the patterns that are not balanced, as far as these are `Tidy`: no
  parenthesis or bracket is passed over, and nothing is given up that is open. For others, whose parentheses and
  brackets are all seen, it does not, unless it is right to throw.
-/

namespace Cppnet.Pattern

open Lib Opener

/-! ## The parser -/

/-- The operators that do not stand right behind a literal; at the start, `behind` says if there was one. -/
def seenFrom (behind : Bool) : Bytes → Bytes
  | [] => []
  | c :: text =>
    if isOperator c then if behind then seenFrom false text else c :: seenFrom false text else seenFrom true text

/-- The operators of a pattern that are seen. -/
def seen (str : Bytes) : Bytes := seenFrom false str

/-- The open parentheses and brackets on the stack. -/
def openers (operators : List Op) : List Opener :=
  operators.filterMap fun
    | .parenOpen => some paren
    | .bracketOpen => some bracket
    | _ => none

/-- No closing parenthesis is ever on the stack. -/
def NoClose (operators : List Op) : Prop := Op.parenClose ∉ operators

theorem openers_cons_of_ne {o : Op} (hparen : o ≠ .parenOpen) (hbracket : o ≠ .bracketOpen) (operators : List Op) :
    openers (o :: operators) = openers operators := by
  rw [openers, List.filterMap_cons_none]
  · rfl
  · cases o <;> first | rfl | contradiction

/-- A bar gives up brackets. -/
theorem openers_handleOp_bar (output : List Bytes) (operators : List Op) :
    openers (handleOp .verticalBar output operators).operators = (openers operators).dropWhile (· = bracket) := by
  induction operators generalizing output with
  | nil => rfl
  | cons top operators ih =>
    rw [handleOp]
    split_ifs with htop
    · rw [ih]
      by_cases hbracket : top = .bracketOpen
      · subst hbracket
        rfl
      · rw [openers_cons_of_ne htop.1 hbracket]
    · have htop : top = .parenOpen := by simpa [Op.le] using htop
      subst htop
      rfl

/-- The other operators leave brackets and parentheses open. -/
theorem openers_handleOp {o : Op} (ho : o = .period ∨ o = .asterisk ∨ o = .plus ∨ o = .questionMark)
    (output : List Bytes) (operators : List Op) :
    openers (handleOp o output operators).operators = openers operators := by
  induction operators generalizing output with
  | nil => rcases ho with rfl | rfl | rfl | rfl <;> rfl
  | cons top operators ih =>
    rw [handleOp]
    split_ifs with htop
    · have hbracket : top ≠ .bracketOpen := by
        rintro rfl
        rcases ho with rfl | rfl | rfl | rfl <;> cases htop.2
      rw [ih, openers_cons_of_ne htop.1 hbracket]
    · rcases ho with rfl | rfl | rfl | rfl <;> exact openers_cons_of_ne (by decide) (by decide) _

theorem mem_handleOp {o x : Op} {output : List Bytes} {operators : List Op}
    (hx : x ∈ (handleOp o output operators).operators) : x = o ∨ x ∈ operators := by
  induction operators generalizing output with
  | nil => exact .inl (List.mem_singleton.1 hx)
  | cons top operators ih =>
    rw [handleOp] at hx
    split_ifs at hx with htop
    · exact (ih hx).imp_right (List.mem_cons_of_mem top)
    · exact List.mem_cons.1 hx

/-- The operator that stands for something open. -/
def Opener.op : Opener → Op
  | paren => .parenOpen
  | bracket => .bracketOpen

theorem openers_cons (top : Op) (operators : List Op) : (∃ o : Opener, top = o.op ∧
      openers (top :: operators) = o :: openers operators) ∨
    (∀ o : Opener, top ≠ o.op) ∧ openers (top :: operators) = openers operators := by
  by_cases hparen : top = .parenOpen
  · exact .inl ⟨paren, hparen, by rw [hparen]; rfl⟩
  by_cases hbracket : top = .bracketOpen
  · exact .inl ⟨bracket, hbracket, by rw [hbracket]; rfl⟩
  refine .inr ⟨fun o => ?_, openers_cons_of_ne hparen hbracket operators⟩
  cases o
  · exact hparen
  · exact hbracket

/-- Something is closed. -/
theorem openers_popTo (o : Opener) (what : String) (output : List Bytes) (operators : List Op) :
    (popTo o.op what output operators).toOption.map (fun s => openers s.operators) = o.close (openers operators) := by
  induction operators generalizing output with
  | nil => rfl
  | cons top operators ih =>
    rw [popTo]
    rcases openers_cons top operators with ⟨o', rfl, hcons⟩ | ⟨hne, hcons⟩
    · rw [hcons, close]
      have hiff : o'.op = o.op ↔ o' = o := by cases o <;> cases o' <;> decide
      by_cases ho : o' = o
      · rw [if_pos (hiff.2 ho), if_pos ho]
        rfl
      · rw [if_neg (mt hiff.1 ho), if_neg ho, ih]
    · rw [if_neg (hne o), ih, hcons]

theorem mem_popTo {start x : Op} {what : String} {output : List Bytes} {operators : List Op} {s : Parser}
    (hs : popTo start what output operators = .ok s) (hx : x ∈ s.operators) : x ∈ operators := by
  induction operators generalizing output with
  | nil => cases hs
  | cons top operators ih =>
    rw [popTo] at hs
    split_ifs at hs with htop
    · cases hs
      exact List.mem_cons_of_mem top hx
    · exact List.mem_cons_of_mem top (ih hs)

/-- What a turn at an operator does to what is open. -/
theorem parseChar_operator {s : Parser} {c : Byte} (hc : isOperator c) (hs : NoClose s.operators) (text : Bytes) :
    ∃ r : Except ParseException Parser, parseChar s c text = r.map (fun s => (s, text)) ∧
      r.toOption.map (fun s => openers s.operators) = openStep (openers s.operators) c ∧
      ∀ s', r = .ok s' → NoClose s'.operators := by
  have hopened (o : Op) (ho : o ≠ .parenClose) : ∀ s', Except.ok { s with operators := o :: s.operators } =
      (.ok s' : Except ParseException Parser) → NoClose s'.operators := by
    rintro _ ⟨⟩
    exact List.not_mem_cons_of_ne_of_not_mem ho.symm hs
  have hclosed (start : Op) (what : String) : ∀ s', popTo start what s.output s.operators = .ok s' →
      NoClose s'.operators := fun s' hs' hmem => hs (mem_popTo hs' hmem)
  have hhandled (o : Op) (ho : o ≠ .parenClose) : ∀ s', Except.ok (handleOp o s.output s.operators) =
      (.ok s' : Except ParseException Parser) → NoClose s'.operators := by
    rintro _ ⟨⟩ hmem
    exact (mem_handleOp hmem).elim (fun h => ho h.symm) hs
  have hcases : c = ch '|' ∨ c = ch '[' ∨ c = ch ']' ∨ c = ch '.' ∨ c = ch '*' ∨ c = ch '+' ∨ c = ch '?' ∨
      c = ch '(' ∨ c = ch ')' := by
    simpa [isOperator, sv] using hc
  rcases hcases with rfl | rfl | rfl | rfl | rfl | rfl | rfl | rfl | rfl
  · exact ⟨.ok (handleOp .verticalBar s.output s.operators), rfl,
      congrArg some (openers_handleOp_bar s.output s.operators), hhandled .verticalBar (by decide)⟩
  · exact ⟨_, rfl, rfl, hopened .bracketOpen (by decide)⟩
  · exact ⟨_, rfl, openers_popTo bracket _ _ _, hclosed .bracketOpen _⟩
  · exact ⟨.ok (handleOp .period s.output s.operators), rfl,
      congrArg some (openers_handleOp (by simp) s.output s.operators), hhandled .period (by decide)⟩
  · exact ⟨.ok (handleOp .asterisk s.output s.operators), rfl,
      congrArg some (openers_handleOp (by simp) s.output s.operators), hhandled .asterisk (by decide)⟩
  · exact ⟨.ok (handleOp .plus s.output s.operators), rfl,
      congrArg some (openers_handleOp (by simp) s.output s.operators), hhandled .plus (by decide)⟩
  · exact ⟨.ok (handleOp .questionMark s.output s.operators), rfl,
      congrArg some (openers_handleOp (by simp) s.output s.operators), hhandled .questionMark (by decide)⟩
  · exact ⟨_, rfl, rfl, hopened .parenOpen (by decide)⟩
  · exact ⟨_, rfl, openers_popTo paren _ _ _, hclosed .parenOpen _⟩

/-- A literal opens and closes nothing. -/
theorem parseChar_literal (s : Parser) {c : Byte} (hc : isOperator c = false) (text : Bytes) :
    ∃ s', parseChar s c text = .ok (s', (afterLiteral (c :: text)).drop 1) ∧ s'.operators = s.operators := by
  have hne : ∀ b, isOperator b = true → c ≠ b := by
    rintro b hb rfl
    rw [hc] at hb
    cases hb
  simp only [parseChar, hne _ (rfl : isOperator (ch '(') = true), hne _ (rfl : isOperator (ch ')') = true),
    hne _ (rfl : isOperator (ch '|') = true), hne _ (rfl : isOperator (ch '[') = true),
    hne _ (rfl : isOperator (ch ']') = true), hne _ (rfl : isOperator (ch '.') = true),
    hne _ (rfl : isOperator (ch '*') = true), hne _ (rfl : isOperator (ch '+') = true),
    hne _ (rfl : isOperator (ch '?') = true), if_false]
  exact ⟨_, rfl, rfl⟩

/-- The loop over a literal without backslashes gets to the next operator. -/
theorem afterLiteral_eq {text : Bytes} (htext : ch '\\' ∉ text) :
    afterLiteral text = text.dropWhile fun c => !isOperator c := by
  induction text using afterLiteral.induct with
  | case1 => rfl
  | case2 c hc => simp [afterLiteral, hc]
  | case3 c hc => simp [afterLiteral, hc]
  | case4 c c' text hc => simp [afterLiteral, hc]
  | case5 c text hc ih => simp at htext
  | case6 c c' text hc hc' ih =>
    rw [List.mem_cons, not_or] at htext
    rw [afterLiteral, if_neg hc, if_neg hc', ih htext.2,
      @List.dropWhile_cons_of_pos _ _ c _ (by simpa using hc)]

theorem seenFrom_literal (text : Bytes) :
    seenFrom true text = seenFrom false ((text.dropWhile fun c => !isOperator c).drop 1) := by
  induction text with
  | nil => rfl
  | cons c text ih =>
    by_cases hc : isOperator c
    · rw [List.dropWhile_cons_of_neg (by simpa using hc), seenFrom, if_pos hc, if_pos rfl, List.drop_one,
        List.tail_cons]
    · rw [List.dropWhile_cons_of_pos (by simpa using hc), seenFrom, if_neg hc, ih]

theorem reads_cons (st : List Opener) (c : Byte) (text : Bytes) :
    reads st (c :: text) = (openStep st c).bind fun st => reads st text := rfl

theorem parseTurn_of_ok {s s' : Parser} {c : Byte} {text rest : Bytes} (h : parseChar s c text = .ok (s', rest)) :
    parseTurn (s, c :: text) = some (.next (s', rest)) := by
  rw [parseTurn]
  dsimp only
  rw [h]

theorem parseTurn_of_error {s : Parser} {c : Byte} {text : Bytes} {e : ParseException}
    (h : parseChar s c text = .error e) : parseTurn (s, c :: text) = some (.done (.error e)) := by
  rw [parseTurn]
  dsimp only
  rw [h]

/-- The loop over a pattern without backslashes comes to its end, with what is open after what is seen, or with an
    error. -/
theorem run_parseTurn {text : Bytes} (htext : ch '\\' ∉ text) {n : ℕ} (hn : text.length < n) {s : Parser}
    (hs : NoClose s.operators) : ∃ r, Loop.run parseTurn n (s, text) = some r ∧
      r.toOption.map (fun s => openers s.operators) = reads (openers s.operators) (seenFrom false text) ∧
      ∀ s', r = .ok s' → NoClose s'.operators := by
  induction n generalizing text s with
  | zero => exact absurd hn (Nat.not_lt_zero _)
  | succ n ih =>
    cases text with
    | nil =>
      refine ⟨.ok s, Loop.run_succ_done rfl, rfl, ?_⟩
      rintro _ ⟨⟩
      exact hs
    | cons c text =>
      rw [List.length_cons] at hn
      by_cases hc : isOperator c
      · obtain ⟨r, hparse, hopen, hclose⟩ := parseChar_operator hc hs text
        rw [seenFrom, if_pos hc, if_neg Bool.false_ne_true, reads_cons, ← hopen]
        cases r with
        | error e =>
          exact ⟨.error e, Loop.run_succ_done (parseTurn_of_error hparse), rfl, fun _ h => by cases h⟩
        | ok s₁ =>
          rw [Loop.run_succ_next (parseTurn_of_ok hparse)]
          exact ih (fun h => htext (List.mem_cons_of_mem c h)) (Nat.lt_of_succ_lt_succ hn) (hclose s₁ rfl)
      · rw [Bool.not_eq_true] at hc
        obtain ⟨s₁, hparse, hoperators⟩ := parseChar_literal s hc text
        rw [afterLiteral_eq htext, List.dropWhile_cons_of_pos (by rw [hc]; rfl)] at hparse
        have hsuffix : (text.dropWhile fun c => !isOperator c).drop 1 <:+ text :=
          (List.drop_suffix _ _).trans (List.dropWhile_suffix _)
        rw [Loop.run_succ_next (parseTurn_of_ok hparse), seenFrom, hc, if_neg Bool.false_ne_true, seenFrom_literal,
          ← hoperators]
        refine ih (fun h => htext (List.mem_cons_of_mem c (hsuffix.subset h))) ?_ (hoperators ▸ hs)
        exact hsuffix.length_le.trans_lt (Nat.lt_of_succ_lt_succ hn)

/-- At the end, no parenthesis is open. -/
theorem finish_eq_ok {operators : List Op} (hclose : NoClose operators) (output : List Bytes) :
    (∃ result, finish output operators = .ok result) ↔ ∀ x ∈ openers operators, x = bracket := by
  induction operators generalizing output with
  | nil => exact iff_of_true ⟨output, rfl⟩ (List.forall_mem_nil _)
  | cons top operators ih =>
    rw [NoClose, List.mem_cons, not_or] at hclose
    rw [finish]
    by_cases htop : top = .parenOpen
    · rw [if_pos (.inl htop)]
      subst htop
      refine iff_of_false (fun ⟨_, h⟩ => by cases h) fun h => ?_
      cases h paren List.mem_cons_self
    · rw [if_neg (not_or.2 ⟨htop, fun h => hclose.1 h.symm⟩), ih hclose.2]
      by_cases hbracket : top = .bracketOpen
      · subst hbracket
        exact ⟨fun h => List.forall_mem_cons.2 ⟨rfl, h⟩, fun h => (List.forall_mem_cons.1 h).2⟩
      · rw [openers_cons_of_ne htop hbracket]

/-- Of a pattern without backslashes, a text of the grammar has to be seen. -/
theorem parse_throws_iff {str : Bytes} (hstr : ch '\\' ∉ str) :
    ∃ r, parse str = some r ∧ ((∃ e, r = .error e) ↔ ¬Loose paren (seen str)) := by
  obtain ⟨r, hrun, hopen, hclose⟩ := run_parseTurn hstr (Nat.lt_succ_self _) (s := {}) List.not_mem_nil
  refine ⟨_, by rw [parse, hrun, Option.map_some], ?_⟩
  rw [loose_iff_reads, seen]
  cases r with
  | error e =>
    refine iff_of_true ⟨e, rfl⟩ ?_
    rintro ⟨st, hreads, -⟩
    cases hopen.trans hreads
  | ok s =>
    have hfinish := finish_eq_ok (hclose s rfl) s.output
    have hreads : reads [] (seenFrom false str) = some (openers s.operators) := hopen.symm
    rw [hreads]
    constructor
    · rintro ⟨e, he⟩ ⟨st, hst, hbracket⟩
      cases hst
      obtain ⟨result, hresult⟩ := hfinish.2 hbracket
      cases he.symm.trans hresult
    · intro hnot
      cases hresult : finish s.output s.operators with
      | error e => exact ⟨e, hresult⟩
      | ok result => exact absurd ⟨_, rfl, hfinish.1 ⟨result, hresult⟩⟩ hnot

/-! ## Balanced patterns -/

/-- What is open after another character, if nothing but the last that is open may be closed. -/
def strictStep (st : List Opener) (c : Byte) : Option (List Opener) :=
  if c = ch '(' then some (paren :: st)
  else if c = ch '[' then some (bracket :: st)
  else if c = ch ')' then (if st.head? = some paren then some st.tail else none)
  else if c = ch ']' then (if st.head? = some bracket then some st.tail else none)
  else some st

/-- The parentheses and brackets are properly nested and matched. -/
def Balanced (str : Bytes) : Prop := str.foldlM strictStep [] = some []

instance (str : Bytes) : Decidable (Balanced str) := inferInstanceAs (Decidable (_ = _))

/-! ## Patterns that are read as they should be -/

/-- Reading a text from left to right, behind a literal or not, with what is open on the stack, the parser does what it
    should: it does not pass over a parenthesis or a bracket, it gives up nothing that is open, neither to close
    something else, nor at a bar, nor at the end, unless a parenthesis is open; or it gets to where something is to be
    closed of which nothing is open. -/
inductive Tidy : Bool → List Opener → Bytes → Prop
  | nil {behind : Bool} {st : List Opener} : st = [] ∨ paren ∈ st → Tidy behind st []
  | literal {behind : Bool} {st : List Opener} {c : Byte} {text : Bytes} : isOperator c = false → Tidy true st text →
      Tidy behind st (c :: text)
  | neutral {behind : Bool} {st : List Opener} {c : Byte} {text : Bytes} : isOperator c → Neutral c →
      Tidy false st text → Tidy behind st (c :: text)
  | bar {behind : Bool} {st : List Opener} {text : Bytes} : (behind = false → st.head? ≠ some bracket) →
      Tidy false st text → Tidy behind st (ch '|' :: text)
  | start {st : List Opener} {o : Opener} {text : Bytes} : Tidy false (o :: st) text → Tidy false st (o.start :: text)
  | stop {st : List Opener} {o : Opener} {text : Bytes} : Tidy false st text → Tidy false (o :: st) (o.stop :: text)
  | missing {st : List Opener} {o : Opener} {text : Bytes} : o ∉ st → Tidy false st (o.stop :: text)

/-- A text is read to its end, with no parenthesis open. -/
def Accepted (st : List Opener) (text : Bytes) : Prop := ∃ st', reads st text = some st' ∧ ∀ x ∈ st', x = bracket

theorem isOperator_start (o : Opener) : isOperator o.start = true := by cases o <;> rfl

theorem isOperator_stop (o : Opener) : isOperator o.stop = true := by cases o <;> rfl

theorem seenFrom_of_operator {c : Byte} (hc : isOperator c) (behind : Bool) (text : Bytes) :
    seenFrom behind (c :: text) = if behind then seenFrom false text else c :: seenFrom false text := by
  rw [seenFrom, if_pos hc]

theorem seenFrom_of_literal {c : Byte} (hc : isOperator c = false) (behind : Bool) (text : Bytes) :
    seenFrom behind (c :: text) = seenFrom true text := by
  rw [seenFrom, if_neg (by rw [hc]; exact Bool.false_ne_true)]

/-- A character that is no operator opens and closes nothing. -/
theorem neutral_of_literal {c : Byte} (hc : isOperator c = false) : Neutral c := by
  rw [neutral_iff]
  refine ⟨?_, ?_, ?_, ?_, ?_⟩ <;> rintro rfl <;> cases hc

theorem Neutral.strictStep {c : Byte} (hc : Neutral c) (st : List Opener) : strictStep st c = some st := by
  obtain ⟨h₁, h₂, -, h₄, h₅⟩ := neutral_iff.1 hc
  rw [Pattern.strictStep, if_neg h₁, if_neg h₄, if_neg h₂, if_neg h₅]

theorem strictStep_start (st : List Opener) (o : Opener) : strictStep st o.start = some (o :: st) := by
  cases o <;> rfl

theorem strictStep_stop (st : List Opener) (o : Opener) :
    strictStep st o.stop = if st.head? = some o then some st.tail else none := by
  cases o <;> rfl

theorem strict_cons (st : List Opener) (c : Byte) (text : Bytes) :
    (c :: text).foldlM strictStep st = (strictStep st c).bind fun st => text.foldlM strictStep st := rfl

theorem accepted_cons {st st' : List Opener} {c : Byte} (hstep : openStep st c = some st') (text : Bytes) :
    Accepted st (c :: text) ↔ Accepted st' text := by
  rw [Accepted, reads_cons, hstep]
  exact Iff.rfl

/-- A tidy text is accepted if and only if it is balanced. -/
theorem Tidy.accepted_iff {behind : Bool} {st : List Opener} {text : Bytes} (h : Tidy behind st text) :
    Accepted st (seenFrom behind text) ↔ text.foldlM strictStep st = some [] := by
  induction h with
  | nil hst =>
    constructor
    · rintro ⟨st', hreads, hall⟩
      cases hreads
      rcases hst with rfl | hmem
      · rfl
      · cases hall _ hmem
    · intro hnil
      exact ⟨[], hnil, List.forall_mem_nil _⟩
  | literal hc _ ih =>
    rwa [seenFrom_of_literal hc, strict_cons, (neutral_of_literal hc).strictStep, Option.bind_some]
  | @neutral behind st c text hc hneutral _ ih =>
    rw [seenFrom_of_operator hc, strict_cons, hneutral.strictStep, Option.bind_some, ← ih]
    cases behind with
    | false => exact accepted_cons (hneutral.openStep _) _
    | true => exact Iff.rfl
  | @bar behind st text hbar _ ih =>
    have hstrict : strictStep st (ch '|') = some st := rfl
    rw [seenFrom_of_operator rfl, strict_cons, hstrict, Option.bind_some, ← ih]
    cases behind with
    | false =>
      refine accepted_cons ?_ _
      have hdrop := @dropWhile_bracket [] st (List.forall_mem_nil _) (hbar rfl)
      rw [List.nil_append] at hdrop
      rw [openStep_bar, hdrop]
    | true => exact Iff.rfl
  | start _ ih =>
    rw [seenFrom_of_operator (isOperator_start _), if_neg Bool.false_ne_true, strict_cons, strictStep_start,
      Option.bind_some, ← ih]
    exact accepted_cons (openStep_start _ _) _
  | stop _ ih =>
    rw [seenFrom_of_operator (isOperator_stop _), if_neg Bool.false_ne_true, strict_cons, strictStep_stop,
      if_pos List.head?_cons, Option.bind_some, List.tail_cons, ← ih]
    refine accepted_cons ?_ _
    rw [openStep_stop, close, if_pos rfl]
  | @missing st o text ho =>
    refine iff_of_false ?_ fun hstrict => ?_
    · rintro ⟨st', hreads, -⟩
      rw [seenFrom_of_operator (isOperator_stop o), if_neg Bool.false_ne_true, reads_cons] at hreads
      obtain ⟨st₁, hclose, -⟩ := Option.bind_eq_some_iff.1 hreads
      rw [openStep_stop, close_eq_some] at hclose
      obtain ⟨above, rfl, -⟩ := hclose
      exact ho (List.mem_append_right above List.mem_cons_self)
    · have hhead : st.head? ≠ some o := fun hhead => ho (List.mem_of_mem_head? hhead)
      rw [strict_cons, strictStep_stop, if_neg hhead] at hstrict
      cases hstrict

/-! ## Patterns that are not -/

theorem count_start (o : Opener) :
    [o.start].count (ch ']') = 0 ∧ [o.start].count (ch '[') = [o].count bracket := by cases o <;> decide

theorem count_stop (o : Opener) :
    [o.stop].count (ch '[') = 0 ∧ [o.stop].count (ch ']') = [o].count bracket := by cases o <;> decide

theorem count_cons_bracket (o : Opener) (st : List Opener) :
    (o :: st).count bracket = [o].count bracket + st.count bracket := by
  rw [← List.singleton_append, List.count_append]

/-- Brackets that are closed were open, or were opened. -/
theorem openStep_count {st st' : List Opener} {c : Byte} (h : openStep st c = some st') :
    st'.count bracket + [c].count (ch ']') ≤ st.count bracket + [c].count (ch '[') := by
  rcases char_cases c with ⟨o, rfl⟩ | ⟨o, rfl⟩ | rfl | hc
  · rw [openStep_start] at h
    cases h
    rw [(count_start o).1, (count_start o).2, count_cons_bracket]
    omega
  · rw [openStep_stop, close_eq_some] at h
    obtain ⟨above, rfl, -⟩ := h
    rw [(count_stop o).1, (count_stop o).2, List.count_append, count_cons_bracket o st']
    omega
  · rw [openStep_bar] at h
    cases h
    exact Nat.add_le_add_right ((List.dropWhile_sublist _).count_le bracket) _
  · rw [hc.openStep] at h
    cases h
    obtain ⟨-, -, -, h₄, h₅⟩ := neutral_iff.1 hc
    simp [h₄, h₅]

theorem reads_count {st st' : List Opener} {text : Bytes} (h : reads st text = some st') :
    st'.count bracket + text.count (ch ']') ≤ st.count bracket + text.count (ch '[') := by
  induction text generalizing st with
  | nil =>
    cases h
    exact le_rfl
  | cons c text ih =>
    obtain ⟨st₁, hstep, hrest⟩ := Option.bind_eq_some_iff.1 h
    have hcount := openStep_count hstep
    have hrest := ih hrest
    rw [← List.singleton_append, List.count_append, List.count_append]
    omega

/-- Where only the last one may be closed, brackets that are closed are as many. -/
theorem strictStep_count {st st' : List Opener} {c : Byte} (h : strictStep st c = some st') :
    st'.count bracket + [c].count (ch ']') = st.count bracket + [c].count (ch '[') := by
  rcases char_cases c with ⟨o, rfl⟩ | ⟨o, rfl⟩ | rfl | hc
  · rw [strictStep_start] at h
    cases h
    rw [(count_start o).1, (count_start o).2, count_cons_bracket]
    omega
  · rw [strictStep_stop] at h
    split_ifs at h with hhead
    cases h
    obtain ⟨st, rfl⟩ := List.head?_eq_some_iff.1 hhead
    rw [(count_stop o).1, (count_stop o).2, List.tail_cons, count_cons_bracket o st]
    omega
  · cases h
    rfl
  · rw [hc.strictStep] at h
    cases h
    obtain ⟨-, -, -, h₄, h₅⟩ := neutral_iff.1 hc
    simp [h₄, h₅]

theorem strict_count {st st' : List Opener} {text : Bytes} (h : text.foldlM strictStep st = some st') :
    st'.count bracket + text.count (ch ']') = st.count bracket + text.count (ch '[') := by
  induction text generalizing st with
  | nil =>
    cases h
    rfl
  | cons c text ih =>
    obtain ⟨st₁, hstep, hrest⟩ := Option.bind_eq_some_iff.1 h
    have hcount := strictStep_count hstep
    have hrest := ih hrest
    rw [← List.singleton_append, List.count_append, List.count_append]
    omega

/-- No parenthesis or bracket is right behind a literal. -/
structure Shown (behind : Bool) (text : Bytes) : Prop where
  head : behind = true → ∀ c ∈ text.head?, c ∉ sv "()[]"
  pairs : ∀ c c', [c, c'] <:+: text → isOperator c = false → c' ∉ sv "()[]"

theorem Shown.tail {behind : Bool} {c : Byte} {text : Bytes} (h : Shown behind (c :: text)) :
    Shown (!isOperator c) text where
  head hc c' hc' := by
    obtain ⟨rest, rfl⟩ := List.head?_eq_some_iff.1 hc'
    refine h.pairs c c' ?_ (by simpa using hc)
    exact List.IsPrefix.isInfix ⟨rest, rfl⟩
  pairs c₁ c₂ hpair := h.pairs c₁ c₂ (hpair.trans (List.suffix_cons c text).isInfix)

theorem Shown.seen_count {behind : Bool} {text : Bytes} (h : Shown behind text) {d : Byte} (hd : d ∈ sv "()[]") :
    (seenFrom behind text).count d = text.count d := by
  induction text generalizing behind with
  | nil => rfl
  | cons c text ih =>
    have htail := ih h.tail
    cases hc : isOperator c with
    | true =>
      rw [hc, Bool.not_true] at htail
      rw [seenFrom_of_operator hc]
      cases behind with
      | false => rw [if_neg Bool.false_ne_true, List.count_cons, List.count_cons, htail]
      | true =>
        have hne : c ≠ d := fun heq => h.head rfl c rfl (heq ▸ hd)
        rw [if_pos rfl, htail, List.count_cons_of_ne hne]
    | false =>
      rw [hc, Bool.not_false] at htail
      have hne : c ≠ d := by
        rintro rfl
        have hoperator : ∀ b ∈ sv "()[]", isOperator b = true := by decide
        rw [hoperator c hd] at hc
        cases hc
      rw [seenFrom_of_literal hc, htail, List.count_cons_of_ne hne]

/-- A balanced text that is accepted is tidy, if all its parentheses and brackets are seen. -/
theorem Shown.tidy {behind : Bool} {text : Bytes} (h : Shown behind text) {st st' : List Opener}
    (hstrict : text.foldlM strictStep st = some []) (hreads : reads st (seenFrom behind text) = some st') :
    Tidy behind st text := by
  induction text generalizing behind st with
  | nil => exact .nil (.inl (Option.some_inj.1 hstrict))
  | cons c text ih =>
    have htail := h.tail
    obtain ⟨st₁, hstep, hrest⟩ := Option.bind_eq_some_iff.1 hstrict
    cases hc : isOperator c with
    | false =>
      rw [hc, Bool.not_false] at htail
      rw [(neutral_of_literal hc).strictStep] at hstep
      cases hstep
      rw [seenFrom_of_literal hc] at hreads
      exact .literal hc (ih htail hrest hreads)
    | true =>
      rw [hc, Bool.not_true] at htail
      rw [seenFrom_of_operator hc] at hreads
      have hbehind : c ∈ sv "()[]" → behind = false := fun hmem =>
        Bool.eq_false_iff.2 fun heq => h.head heq c rfl hmem
      rcases char_cases c with ⟨o, rfl⟩ | ⟨o, rfl⟩ | rfl | hneutral
      · obtain rfl := hbehind (by cases o <;> decide)
        rw [if_neg Bool.false_ne_true, reads_start] at hreads
        rw [strictStep_start] at hstep
        cases hstep
        exact .start (ih htail hrest hreads)
      · obtain rfl := hbehind (by cases o <;> decide)
        rw [strictStep_stop] at hstep
        split_ifs at hstep with hhead
        cases hstep
        obtain ⟨st, rfl⟩ := List.head?_eq_some_iff.1 hhead
        rw [if_neg Bool.false_ne_true, reads_cons, openStep_stop, close, if_pos rfl, Option.bind_some] at hreads
        exact .stop (ih htail hrest hreads)
      · cases hstep
        cases behind with
        | true => exact .bar (fun hfalse => by cases hfalse) (ih htail hrest hreads)
        | false =>
          rw [if_neg Bool.false_ne_true, reads_cons, openStep_bar, Option.bind_some] at hreads
          by_cases hhead : st.head? = some bracket
          · -- A bracket is given up, which is missed when as many are closed as were opened.
            obtain ⟨st, rfl⟩ := List.head?_eq_some_iff.1 hhead
            have hread := reads_count hreads
            have hopen := strict_count hrest
            rw [htail.seen_count (by decide), htail.seen_count (by decide)] at hread
            have hdrop : (((bracket :: st).dropWhile (· = bracket)).count bracket) ≤ st.count bracket := by
              rw [List.dropWhile_cons_of_pos (by simp)]
              exact (List.dropWhile_sublist _).count_le _
            rw [List.count_cons_self] at hopen
            simp only [List.count_nil] at hopen
            omega
          · have hdrop := @dropWhile_bracket [] st (List.forall_mem_nil _) hhead
            rw [List.nil_append] at hdrop
            rw [hdrop] at hreads
            exact .bar (fun _ => hhead) (ih htail hrest hreads)
      · rw [hneutral.strictStep] at hstep
        cases hstep
        refine .neutral hc hneutral (ih htail hrest ?_)
        cases behind with
        | true => exact hreads
        | false => rwa [if_neg Bool.false_ne_true, reads_cons, hneutral.openStep, Option.bind_some] at hreads

/-- For a pattern without backslashes, the parser throws if and only if the pattern is not balanced, if the pattern is
    tidy; of the balanced ones whose parentheses and brackets are all seen, for no other. -/
theorem parse_balanced_of_tidy {str : Bytes} (hstr : ch '\\' ∉ str) : ∃ r, parse str = some r ∧
    (Tidy false [] str → ((∃ e, r = .error e) ↔ ¬Balanced str)) ∧
    (Shown false str → Balanced str → (((∃ e, r = .error e) ↔ ¬Balanced str) ↔ Tidy false [] str)) := by
  obtain ⟨r, hparse, hthrows⟩ := parse_throws_iff hstr
  have htidy : Tidy false [] str → ((∃ e, r = .error e) ↔ ¬Balanced str) := fun htidy => by
    rw [hthrows, not_iff_not, loose_iff_reads]
    exact htidy.accepted_iff
  refine ⟨r, hparse, htidy, fun hshown hbalanced => ⟨fun hiff => ?_, htidy⟩⟩
  have hloose : Loose paren (seen str) := by
    by_contra hloose
    exact hiff.1 (hthrows.2 hloose) hbalanced
  obtain ⟨st, hreads, -⟩ := loose_iff_reads.1 hloose
  exact hshown.tidy hbalanced hreads

/-- A bar and a literal in parentheses, and brackets within them. -/
theorem parse_balanced_of_tidy_dots :
    ∃ r, parse (sv "([.]|a.)") = some r ∧ ((∃ e, r = .error e) ↔ ¬Balanced (sv "([.]|a.)")) := by
  obtain ⟨r, hparse, htidy, -⟩ := @parse_balanced_of_tidy (sv "([.]|a.)") (by decide)
  have hneutral : Neutral (ch '.') := by decide
  refine ⟨r, hparse, htidy ?_⟩
  exact .start (o := paren) (.start (o := bracket) (.neutral rfl hneutral (.stop (o := bracket) (.bar (by decide)
    (.literal rfl (.neutral rfl hneutral (.stop (o := paren) (.nil (.inl rfl)))))))))

/-- A parenthesis behind a literal is passed over, be it needed or not; a bar closes a bracket; a bracket closes a
    parenthesis; and a bracket stays open. -/
theorem parse_not_balanced :
    (Balanced (sv "(a)") ∧ parse (sv "(a)") = some (.error ⟨"mismatched parentheses"⟩)) ∧
    (¬Balanced (sv "a)") ∧ parse (sv "a)") = some (.ok [sv "a"])) ∧
    (Balanced (sv "[|]") ∧ parse (sv "[|]") = some (.error ⟨"mismatched brackets"⟩)) ∧
    (¬Balanced (sv "[(]") ∧ parse (sv "[(]") = some (.ok [sv "("])) ∧
    ¬Balanced (sv "[") ∧ parse (sv "[") = some (.ok [sv "["]) := by
  decide

end Cppnet.Pattern
