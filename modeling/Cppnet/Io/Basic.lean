import Cppnet.Lib.Writer
import Mathlib.Order.MinMax

/-!
# Bytes, errors and streams

The vocabulary of `net::io`: bytes, error conditions, and the result of a read
or a write (`io/io.hpp`). The readers and writers of the library are stacked on
a parent they know only through a virtual call. A *source* is such a parent: a
byte stream, with a script of what its next reads do. An entry of the script is
one read, returning at most `count` bytes (and never more than asked for or than
the stream has left) and possibly an error; after the script, reads are served in
full. At the end of the stream, a read returns no byte, with the error `endErr`,
if any: none for a `string_reader`, `closed` for a socket whose peer has hung up.

As a run makes finitely many reads, the scripts cover every way a parent may
split its stream, fail, or end. A *sink* is a parent writer in the same way,
recording what it received and what it was offered.
-/

namespace Cppnet

open Lib

abbrev Byte := UInt8
abbrev Bytes := List UInt8

/-- A statement about the elements of a list is decided along the list, also where
    their type is finite: there are 256 bytes, and 2 ^ 32 status codes. -/
instance (priority := 2000) decidableForallMem {α : Type*} (p : α → Prop) [DecidablePred p]
    (l : List α) : Decidable (∀ x ∈ l, p x) :=
  List.decidableBAll p l

@[inherit_doc decidableForallMem]
instance (priority := 2000) decidableForallMemOption {α : Type*} (p : α → Prop) [DecidablePred p]
    (o : Option α) : Decidable (∀ x ∈ o, p x) :=
  Option.decidableForallMem o

/-- The values of `std::errc` in use. -/
inductive Errc
  | illegalByteSequence
  | valueTooLarge
  | invalidArgument
  | resultOutOfRange
  | notSupported
  deriving DecidableEq, Repr

/-- `std::error_condition`: a `status_condition`, a `std::errc`, or the `errno`
    of a system call. -/
inductive ErrorCondition
  | closed
  | timedOut
  | error
  | errc (e : Errc)
  | system (errno : ℕ)
  deriving DecidableEq, Repr

namespace Io

/-- `io::result`: the number of bytes read or written, and an error, if any. -/
abbrev Result := Report ErrorCondition

/-! ## Sources -/

/-- What one read of a parent does: the most bytes it returns, and an error. -/
structure ReadEvent where
  count : ℕ
  err : Option ErrorCondition
  deriving DecidableEq, Repr

/-- A parent reader: the bytes of the stream not yet taken, the script of the
    next reads, and the error reported at the end of the stream. -/
structure Source where
  pending : Bytes
  script : List ReadEvent
  endErr : Option ErrorCondition
  deriving DecidableEq, Repr

namespace Source

/-- The event of the next read, into a span of `n` bytes. -/
def nextEvent (s : Source) (n : ℕ) : ReadEvent := s.script.head?.getD ⟨n, none⟩

/-- The number of bytes the next read returns, into a span of `n` bytes. -/
def nextCount (s : Source) (n : ℕ) : ℕ := min (min (s.nextEvent n).count n) s.pending.length

/-- A read from a source. -/
def read (s : Source) (data : Bytes) : Result × Bytes × Source :=
  let n := s.nextCount data.length
  let err := (s.nextEvent data.length).err
  (⟨n, if s.pending = [] then err.or s.endErr else err⟩, s.pending.take n ++ data.drop n,
    { s with pending := s.pending.drop n, script := s.script.tail })

instance : Reader Source Byte ErrorCondition where
  read s data := some (s.read data)
  content s := s.pending
  fuel s := s.script.length + s.pending.length

@[simp] theorem reader_read (s : Source) (data : Bytes) :
    Reader.read s data = some (s.read data) := rfl

@[simp] theorem reader_content (s : Source) : Reader.content s = s.pending := rfl

theorem nextCount_le_span (s : Source) (n : ℕ) : s.nextCount n ≤ n :=
  (min_le_left _ _).trans (min_le_right _ _)

theorem nextCount_le_pending (s : Source) (n : ℕ) : s.nextCount n ≤ s.pending.length :=
  min_le_right _ _

instance : LawfulReader Source where
  delivers {s s' d d' r} h := by
    rw [reader_read, Option.some.injEq, read] at h
    cases h
    exact ⟨s.nextCount_le_span _, s.nextCount_le_pending _, rfl, rfl⟩

/-- Every read of the script returns a byte, if the stream has one. -/
def Prompt (s : Source) : Prop := ∀ ev ∈ s.script, 0 < ev.count

/-- Every read of the script returns a byte, if the stream has one, and no error. -/
def Clean (s : Source) : Prop := ∀ ev ∈ s.script, 0 < ev.count ∧ ev.err = none

instance (s : Source) : Decidable s.Prompt := inferInstanceAs (Decidable (∀ ev ∈ s.script, _))

instance (s : Source) : Decidable s.Clean := inferInstanceAs (Decidable (∀ ev ∈ s.script, _))

theorem nextCount_pos {s : Source} {n : ℕ} (hs : s.Prompt) (hn : 0 < n)
    (hp : s.pending ≠ []) : 0 < s.nextCount n := by
  have hev : 0 < (s.nextEvent n).count := by
    rw [nextEvent]
    cases h : s.script with
    | nil => exact hn
    | cons ev rest => exact hs ev (h ▸ List.mem_cons_self)
  exact lt_min (lt_min hev hn) (List.length_pos_iff.2 hp)

theorem nextEvent_err {s : Source} (hs : s.Clean) (n : ℕ) : (s.nextEvent n).err = none := by
  rw [nextEvent]
  cases h : s.script with
  | nil => rfl
  | cons ev rest => exact (hs ev (h ▸ List.mem_cons_self)).2

instance : PromptReader Source where
  Prompt := Prompt
  Clean := Clean
  prompt_of_clean hs ev hev := (hs ev hev).1
  read_prompt {s} d hs := by
    refine ⟨_, _, _, rfl, fun ev hev => hs ev (List.mem_of_mem_tail hev), fun hd hp => ?_⟩
    exact nextCount_pos hs (List.length_pos_iff.2 hd) hp
  err_of_clean {s s' d d' r} hs h := by
    rw [reader_read, Option.some.injEq, read] at h
    cases h
    refine ⟨fun ev hev => hs ev (List.mem_of_mem_tail hev), fun hp => ?_⟩
    simp only [reader_content] at hp
    simp only [if_neg hp]
    exact nextEvent_err hs _
  length_content_le_fuel s := Nat.le_add_left _ _

/-- A source without a script fills every read as long as there is enough. -/
instance : FillingReader Source where
  Filling s := s.script = []
  read_filling {s d} hs hne hd := by
    have hp : s.pending ≠ [] := List.ne_nil_of_length_pos ((List.length_pos_iff.2 hne).trans_le hd)
    have hn : s.nextCount d.length = d.length := by
      rw [nextCount, nextEvent, hs, List.head?_nil, Option.getD_none, min_self]
      exact min_eq_left hd
    have herr : (s.nextEvent d.length).err = none := by rw [nextEvent, hs]; rfl
    refine ⟨_, _, by rw [reader_read, read, hn, if_neg hp, herr], ?_⟩
    simp [hs]
  length_content_le_fuel _ := Nat.le_add_left _ _

theorem exists_reads (s : Source) (ds : List Bytes) : ∃ out s', Lib.reads s ds = some (out, s') := by
  induction ds generalizing s with
  | nil => exact ⟨[], s, rfl⟩
  | cons d ds ih =>
    rcases hread : s.read d with ⟨res, d', s₁⟩
    obtain ⟨out, s', hreads⟩ := ih s₁
    refine ⟨d'.take res.count ++ out, s', ?_⟩
    rw [Lib.reads, reader_read, hread, Option.bind_some]
    dsimp only
    rw [hreads]
    rfl

/-- At the end of the stream, and only there, a source hands out nothing to reads that go on behind its script. -/
theorem pending_eq_nil_of_reads {s s' : Source} {b : Byte}
    (h : Lib.reads s (List.replicate (s.script.length + 1) [b]) = some ([], s')) : s.pending = [] := by
  obtain ⟨pending, script, endErr⟩ := s
  dsimp only at h ⊢
  induction script with
  | nil =>
    obtain ⟨res, d, s₁, hread, hcount, -⟩ := reads_cons_nil h
    cases hread
    have hmin : min (min 1 1) pending.length = 0 := hcount
    exact List.length_eq_zero_iff.1 (by omega)
  | cons ev script ih =>
    rw [List.length_cons, List.replicate_succ] at h
    obtain ⟨res, d, s₁, hread, hcount, hreads⟩ := reads_cons_nil h
    -- The stream is where it was, with one entry less in front of its script.
    have hs₁ : s₁ = ⟨pending, script, endErr⟩ := by
      rw [reader_read, Option.some.injEq, read] at hread
      cases hread
      dsimp only at hcount ⊢
      rw [hcount]
      rfl
    rw [hs₁] at hreads
    exact ih hreads

/-- A source without a script that ends in an error. -/
theorem ends (e : ErrorCondition) : Ends e fun s : Source => s.script = [] ∧ s.endErr = some e where
  read {s} d hs hp := by
    have hcount : s.nextCount d.length = min d.length s.pending.length := by
      rw [nextCount, nextEvent, hs.1]
      simp
    have herr : (s.nextEvent d.length).err = none := by
      rw [nextEvent, hs.1]
      rfl
    have hread : Reader.read s d = some (s.read d) := rfl
    rw [reader_content] at hp
    rw [read, hcount, herr, if_neg hp] at hread
    refine ⟨_, _, hread, ?_, hs.2⟩
    rw [hs.1]
    rfl
  read_end {s} d hs hp := by
    rw [reader_content] at hp
    have hcount : s.nextCount d.length = 0 := by
      rw [nextCount, hp]
      simp
    have herr : (s.nextEvent d.length).err = none := by
      rw [nextEvent, hs.1]
      rfl
    have hread : Reader.read s d = some (s.read d) := rfl
    rw [read, hcount, herr, if_pos hp, Option.none_or, hs.2] at hread
    refine ⟨_, _, hread, ?_, rfl⟩
    rw [hs.1]
    rfl
  fuel _ := Nat.le_add_left _ _

end Source

/-! ## Sinks -/

/-- What one write of a parent does: the most bytes it accepts, and an error. -/
structure WriteEvent where
  count : ℕ
  err : Option ErrorCondition
  deriving DecidableEq, Repr

/-- A parent writer: the bytes it has received, the spans it was offered, and
    the script of the next writes, after which every write is accepted in full. -/
structure Sink where
  received : Bytes
  offered : List Bytes
  script : List WriteEvent
  deriving DecidableEq, Repr

namespace Sink

/-- A sink that accepts every write in full, and has received nothing. -/
def empty : Sink := ⟨[], [], []⟩

/-- A sink that has received nothing, and accepts at most the given numbers of bytes of its next
    writes. -/
def ofCounts (counts : List ℕ) : Sink := ⟨[], [], counts.map (⟨·, none⟩)⟩

/-- A write to a sink. -/
def write (s : Sink) (data : Bytes) : Result × Sink :=
  let ev := s.script.head?.getD ⟨data.length, none⟩
  let n := min ev.count data.length
  (⟨n, ev.err⟩, ⟨s.received ++ data.take n, s.offered ++ [data], s.script.tail⟩)

instance : Writer Sink Byte ErrorCondition where
  write s data := some (s.write data)
  output s := s.received
  fuel s := s.script.length

@[simp] theorem writer_write (s : Sink) (data : Bytes) :
    Writer.write s data = some (s.write data) := rfl

@[simp] theorem writer_output (s : Sink) : Writer.output s = s.received := rfl

instance : LawfulWriter Sink where
  accepts {s s' d r} h := by
    rw [writer_write, Option.some.injEq, write] at h
    cases h
    exact ⟨min_le_right _ _, rfl⟩

/-- A sink without a script accepts every write in full. -/
theorem write_of_script_eq_nil {s : Sink} (hs : s.script = []) (data : Bytes) :
    s.write data = (⟨data.length, none⟩, ⟨s.received ++ data, s.offered ++ [data], []⟩) := by
  simp [write, hs]

/-- The next entry of the script of a sink says what a write reports. -/
theorem write_of_event {s : Sink} {ev : WriteEvent} (hev : ev ∈ s.script.head?) (data : Bytes) :
    (s.write data).1 = ⟨min ev.count data.length, ev.err⟩ := by
  rw [write, hev]
  rfl

instance : AcceptingWriter Sink where
  Accepting s := s.script = []
  write_accepting d hs := ⟨_, by rw [writer_write, write_of_script_eq_nil hs], rfl⟩

/-- Every write of the script accepts a byte, if it is offered one, and gives no error. -/
def Taking (s : Sink) : Prop := ∀ ev ∈ s.script, 0 < ev.count ∧ ev.err = none

instance (s : Sink) : Decidable s.Taking := inferInstanceAs (Decidable (∀ ev ∈ s.script, _))

/-- The next write accepts `n` bytes, if it is offered as many. -/
def Accepts (s : Sink) (n : ℕ) : Prop := ∀ ev ∈ s.script.head?, n ≤ ev.count

instance (s : Sink) (n : ℕ) : Decidable (s.Accepts n) :=
  inferInstanceAs (Decidable (∀ ev ∈ s.script.head?, _))

/-- The next write is accepted in full if and only if the sink accepts that many bytes. -/
theorem accepts_length_iff {s s' : Sink} {data : Bytes} {res : Result}
    (h : Writer.write s data = some (res, s')) :
    s.Accepts data.length ↔ res.count = data.length := by
  rw [writer_write, Option.some.injEq, write] at h
  cases h
  rw [Accepts]
  cases s.script with
  | nil => simp
  | cons ev script => simp

instance : TakingWriter Sink where
  Taking := Taking
  write_taking {s} d hs := by
    cases h : s.script with
    | nil =>
      refine ⟨d.length, _, by rw [writer_write, write_of_script_eq_nil h], ?_, ?_⟩
      · intro ev hev
        cases hev
      · exact List.length_pos_iff.2
    | cons ev script =>
      have hev := hs ev (h ▸ List.mem_cons_self)
      refine ⟨min ev.count d.length, ⟨s.received ++ d.take (min ev.count d.length),
        s.offered ++ [d], script⟩, ?_, fun ev' hev' => ?_, fun hd => ?_⟩
      · simp [write, h, hev.2]
      · exact hs ev' (h ▸ List.mem_cons_of_mem ev hev')
      · exact lt_min hev.1 (List.length_pos_iff.2 hd)

/-- What a sink was offered by writes accepted in full. -/
theorem offered_of_wrote {s s' : Sink} {ds : List Bytes} (h : Wrote s ds s') :
    s'.offered = s.offered ++ ds := by
  induction h with
  | nil => rw [List.append_nil]
  | cons hw _ ih =>
    rw [ih, ← (Prod.mk.inj (Option.some.inj hw)).2]
    simp

end Sink

/-! ## Connections -/

/-- A connection, such as a socket: what is received, and what is sent. -/
structure Conn (σ ω : Type*) where
  input : σ
  output : ω

end Io

end Cppnet
