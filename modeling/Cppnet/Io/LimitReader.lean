import Cppnet.Io.BufferedReader

/-!
# `limit_reader`

`io/limit_reader.cpp`: a reader handing out no more than the first `limit` bytes
of its parent, and reporting `closed` behind them. It is a lawful reader on that
part of the stream. On a buffered reader whose parent is clean and has that many
bytes, every sequence of reads comes back, and `n` of them into spans that are
not empty hand out the next `n` bytes at least (`reads_fed`).
-/

namespace Cppnet.Io

open Lib

/-- `limit_reader`, on a parent with the states `σ`. -/
structure LimitReader (σ : Type*) where
  parent : σ
  limit : ℕ
  progress : ℕ
  deriving DecidableEq, Repr

namespace LimitReader

variable {σ : Type*}

/-- The constructor. -/
def new (parent : σ) (limit : ℕ) : LimitReader σ := ⟨parent, limit, 0⟩

section Model

variable [Reader σ Byte ErrorCondition]

/-- `read`, into the span `data`. -/
def read (r : LimitReader σ) (data : Bytes) : Option (Result × Bytes × LimitReader σ) :=
  if r.progress ≥ r.limit then some (⟨0, some .closed⟩, data, r)
  else do
    let readAmount := min data.length (r.limit - r.progress)
    let (res, piece, parent) ← Reader.read r.parent (subspan data 0 readAmount)
    some (res, overwrite data 0 piece, { r with parent, progress := r.progress + res.count })

instance : Reader (LimitReader σ) Byte ErrorCondition where
  read := read
  content r := (Reader.content r.parent).take (r.limit - r.progress)
  fuel r := Reader.fuel r.parent

theorem content_eq (r : LimitReader σ) :
    Reader.content r = (Reader.content r.parent).take (r.limit - r.progress) := rfl

variable [LawfulReader σ] {r r' : LimitReader σ}

/-- A read delivers the next bytes of the parent, and none behind the limit. -/
theorem read_spec {data data' : Bytes} {res : Result} (h : r.read data = some (res, data', r')) :
    Delivers (Reader.content r.parent) (Reader.content r'.parent) data data' res.count ∧
      r'.limit = r.limit ∧ r'.progress = r.progress + res.count ∧
      res.count ≤ r.limit - r.progress := by
  rw [read] at h
  split at h
  · cases h
    exact ⟨.refl _ _, rfl, rfl, Nat.zero_le _⟩
  · obtain ⟨⟨res, piece, parent⟩, hread, h⟩ := Option.bind_eq_some_iff.1 h
    cases h
    have hd := LawfulReader.delivers hread
    have hspan := hd.le_span
    simp only [subspan, List.length_take] at hspan
    have hsub := (Delivers.refl (Reader.content r.parent) data).sub hd
    rw [Nat.zero_add] at hsub
    exact ⟨hsub, rfl, rfl, by omega⟩

instance : LawfulReader (LimitReader σ) where
  delivers {r r' d d' res} h := by
    obtain ⟨hd, hlimit, hprogress, hle⟩ := read_spec h
    have hc := hd.le_content
    refine ⟨hd.le_span, ?_, ?_, ?_⟩
    · rw [content_eq, List.length_take]
      omega
    · rw [hd.span, content_eq, List.take_take, Nat.min_eq_left hle]
    · rw [content_eq, content_eq, hd.rest, hlimit, hprogress, List.drop_take, Nat.sub_add_eq]

end Model

/-! ## Limits within the stream -/

section Fed

variable [Reader σ Byte ErrorCondition] [LawfulReader σ] [PromptReader σ]

/-- A limit reader on a buffered reader with a clean parent, whose contents reach
    up to the limit. -/
structure Fed (r : LimitReader (BufferedReader σ)) : Prop where
  ready : r.parent.Ready
  clean : PromptReader.Clean r.parent.impl
  enough : r.limit - r.progress ≤ (Reader.content r.parent).length

variable {r : LimitReader (BufferedReader σ)}

omit [LawfulReader σ] in
theorem length_content_of_fed (hr : r.Fed) : (Reader.content r).length = r.limit - r.progress := by
  rw [content_eq, List.length_take_of_le hr.enough]

/-- A read comes back, with a byte unless the limit is reached. -/
theorem read_fed (hr : r.Fed) {data : Bytes} (hne : data ≠ []) :
    ∃ res data' r', r.read data = some (res, data', r') ∧ r'.Fed ∧
      (Reader.content r').length ≤ (Reader.content r).length - 1 := by
  have hlen := length_content_of_fed hr
  by_cases hdone : r.progress ≥ r.limit
  · -- At the limit, a read is answered without the parent.
    refine ⟨_, _, _, by rw [read, if_pos hdone], hr, ?_⟩
    rw [hlen]
    omega
  have henough := hr.enough
  have hspan : (subspan data 0 (min data.length (r.limit - r.progress))).length =
      min data.length (r.limit - r.progress) := by
    simp [subspan]
  have hpos := List.length_pos_iff.2 hne
  have hne' : subspan data 0 (min data.length (r.limit - r.progress)) ≠ [] := by
    rw [← List.length_pos_iff, hspan]
    omega
  obtain ⟨res, piece, parent, hread, hready, hclean, -, hcount⟩ :=
    BufferedReader.read_ready hr.ready hr.clean hne' (by rw [hspan]; omega)
  have hr' : r.read data = some (res, overwrite data 0 piece,
      { r with parent, progress := r.progress + res.count }) := by
    rw [read, if_neg hdone]
    exact Option.bind_eq_some_iff.2 ⟨_, hread, rfl⟩
  have hrest := (read_spec hr').1.length_rest
  have hfed : Fed { r with parent, progress := r.progress + res.count } := by
    refine ⟨hready, hclean, ?_⟩
    rw [hrest]
    dsimp only
    omega
  refine ⟨_, _, _, hr', hfed, ?_⟩
  rw [length_content_of_fed hfed, hlen]
  dsimp only
  omega

/-- Reads into spans that are not empty come back, and there are at most as many
    of them with something left behind as there are bytes up to the limit. -/
theorem reads_fed (hr : r.Fed) {ds : List Bytes} (hds : ∀ d ∈ ds, d ≠ []) :
    ∃ out r', reads r ds = some (out, r') ∧ r'.Fed ∧
      (Reader.content r').length ≤ (Reader.content r).length - ds.length := by
  induction ds generalizing r with
  | nil => exact ⟨_, _, rfl, hr, le_rfl⟩
  | cons d ds ih =>
    obtain ⟨res, d', r₁, hread, hr₁, hlen₁⟩ := read_fed hr (hds d List.mem_cons_self)
    obtain ⟨out, r₂, hreads, hr₂, hlen₂⟩ := ih hr₁ fun e he => hds e (List.mem_cons_of_mem d he)
    refine ⟨_, r₂, Option.bind_eq_some_iff.2 ⟨_, hread, Option.map_eq_some_iff.2
      ⟨_, hreads, rfl⟩⟩, hr₂, hlen₂.trans ?_⟩
    rw [List.length_cons]
    omega

end Fed

end LimitReader

end Cppnet.Io
