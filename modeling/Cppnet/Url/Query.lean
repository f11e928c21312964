import Cppnet.Url.Parts

/-!
# Queries

The parameters of a query, and the values its text gives to its keys. What `build` writes of the
values are the parameters with a `=` only (`params_queryValues`): a key without a value is lost, unless
it has a value elsewhere (`forall_ne_nil_iff`), and then what is written is shorter than what was read
(`length_params_le`).
-/

namespace Cppnet.Url

open Lib

/-- The key of a parameter. -/
def keyOf (part : Bytes) : Bytes := percentDecode (cut (sv "=") part).1

/-- The key and the value of a parameter, if it has one. -/
def paramOf (part : Bytes) : Option (Bytes × Bytes) :=
  match cut (sv "=") part with
  | (_, []) => none
  | (key, _ :: val) => some (percentDecode key, percentDecode val)

/-- Induction over the parameters of a query. -/
theorem query_induction {motive : Bytes → Prop} (last : ∀ part, ch '&' ∉ part → motive part)
    (append : ∀ part rest, ch '&' ∉ part → motive rest → motive (part ++ ch '&' :: rest)) (raw : Bytes) :
    motive raw := by
  induction hlen : raw.length using Nat.strongRecOn generalizing raw with
  | ind n ih =>
    subst hlen
    by_cases hamp : ch '&' ∈ raw
    · obtain ⟨part, rest, rfl, hpart⟩ := List.eq_append_cons_of_mem hamp
      exact append part rest hpart (ih rest.length (by simp; omega) rest rfl)
    · exact last raw hamp

section Params

variable {query : QueryValues} {key val part : Bytes} {ps : List Bytes}

theorem addPart_of_none (h : paramOf part = none) :
    addPart query part = query.alter (keyOf part) [] id := by
  rw [paramOf] at h
  rw [addPart, keyOf]
  obtain ⟨k, r, hcut⟩ : ∃ k r, cut (sv "=") part = (k, r) := ⟨_, _, rfl⟩
  rw [hcut] at h ⊢
  rcases r with _ | ⟨c, r⟩
  · rfl
  · cases h

theorem addPart_of_some (h : paramOf part = some (key, val)) :
    addPart query part = query.push key val := by
  rw [paramOf] at h
  rw [addPart]
  obtain ⟨k, r, hcut⟩ : ∃ k r, cut (sv "=") part = (k, r) := ⟨_, _, rfl⟩
  rw [hcut] at h ⊢
  rcases r with _ | ⟨c, r⟩
  · cases h
  · cases h
    rfl

theorem keyOf_of_some (h : paramOf part = some (key, val)) : keyOf part = key := by
  rw [paramOf] at h
  rw [keyOf]
  obtain ⟨k, r, hcut⟩ : ∃ k r, cut (sv "=") part = (k, r) := ⟨_, _, rfl⟩
  rw [hcut] at h ⊢
  rcases r with _ | ⟨c, r⟩
  · cases h
  · cases h
    rfl

theorem params_cons (e : Bytes × List Bytes) (es : List (Bytes × List Bytes)) :
    params (e :: es) = e.2.map (e.1, ·) ++ params es :=
  List.flatMap_cons

/-- One more value is one more parameter. -/
theorem params_push (query : QueryValues) (key val : Bytes) :
    (params (query.push key val).entries).Perm ((key, val) :: params query.entries) := by
  rw [KeyedMap.push, KeyedMap.alter]
  dsimp only
  induction query.entries with
  | nil => exact .refl _
  | cons e es ih =>
    rw [KeyedMap.alterEntries]
    split_ifs with hkey
    · obtain rfl : e.1 = key := hkey
      rw [params_cons, params_cons, List.map_append, List.append_assoc]
      exact List.perm_middle
    · rw [params_cons, params_cons]
      exact (ih.append_left _).trans List.perm_middle

/-- A key without a value is no parameter. -/
theorem params_alter (query : QueryValues) (key : Bytes) :
    params (query.alter key [] id).entries = params query.entries := by
  rw [KeyedMap.alter]
  dsimp only
  induction query.entries with
  | nil => rfl
  | cons e es ih =>
    rw [KeyedMap.alterEntries]
    split_ifs
    · rfl
    · rw [params_cons, params_cons, ih]

theorem params_foldl (query : QueryValues) (ps : List Bytes) :
    (params (ps.foldl addPart query).entries).Perm (ps.filterMap paramOf ++ params query.entries) := by
  induction ps generalizing query with
  | nil => exact .refl _
  | cons part ps ih =>
    rw [List.foldl_cons]
    refine (ih _).trans ?_
    rcases hpart : paramOf part with _ | ⟨key, val⟩
    · rw [addPart_of_none hpart, params_alter, List.filterMap_cons_none hpart]
    · rw [addPart_of_some hpart, List.filterMap_cons_some hpart]
      exact ((params_push query key val).append_left _).trans List.perm_middle

/-- The parameters that are written. -/
theorem params_queryValues (raw : Bytes) :
    (params (queryValues raw).entries).Perm ((queryParts raw).filterMap paramOf) := by
  have h := params_foldl .empty (queryParts raw)
  rwa [show params (KeyedMap.empty : QueryValues).entries = [] from rfl, List.append_nil] at h

/-- They are written in some order. -/
theorem params_perm {raw : Bytes} {order : List (Bytes × List Bytes)}
    (horder : order.Perm (queryValues raw).entries) :
    (params order).Perm ((queryParts raw).filterMap paramOf) :=
  (horder.flatMap_right _).trans (params_queryValues raw)

theorem mem_keys_foldl {query : QueryValues} {ps : List Bytes} :
    key ∈ (ps.foldl addPart query).keys ↔ key ∈ query.keys ∨ ∃ part ∈ ps, keyOf part = key := by
  induction ps generalizing query with
  | nil => simp
  | cons part ps ih =>
    have hadd : key ∈ (addPart query part).keys ↔ key = keyOf part ∨ key ∈ query.keys := by
      rcases hpart : paramOf part with _ | ⟨k, v⟩
      · rw [addPart_of_none hpart, KeyedMap.mem_keys_alter]
        rfl
      · rw [addPart_of_some hpart, keyOf_of_some hpart, KeyedMap.push, KeyedMap.mem_keys_alter]
        rfl
    rw [List.foldl_cons, ih, hadd, List.exists_mem_cons_iff, eq_comm]
    tauto

/-- The keys of a query are those of its parameters. -/
theorem mem_keys_queryValues {raw : Bytes} :
    key ∈ (queryValues raw).keys ↔ ∃ part ∈ queryParts raw, keyOf part = key := by
  rw [queryValues, mem_keys_foldl]
  simp

theorem mem_params_iff {es : List (Bytes × List Bytes)} :
    (key, val) ∈ params es ↔ ∃ vals, (key, vals) ∈ es ∧ val ∈ vals := by
  rw [params, List.mem_flatMap]
  constructor
  · rintro ⟨⟨k, vals⟩, he, hmem⟩
    obtain ⟨v, hv, heq⟩ := List.mem_map.1 hmem
    cases heq
    exact ⟨vals, he, hv⟩
  · rintro ⟨vals, he, hv⟩
    exact ⟨(key, vals), he, List.mem_map.2 ⟨val, hv, rfl⟩⟩

/-- Every key has a value if and only if every parameter has the key of one with a value. -/
theorem forall_ne_nil_iff (raw : Bytes) :
    (∀ e ∈ (queryValues raw).entries, e.2 ≠ []) ↔
      ∀ part ∈ queryParts raw, ∃ val, (keyOf part, val) ∈ (queryParts raw).filterMap paramOf := by
  constructor
  · intro h part hpart
    obtain ⟨⟨k, vals⟩, he, hkey⟩ := List.mem_map.1 (mem_keys_queryValues.2 ⟨part, hpart, rfl⟩)
    obtain rfl : k = keyOf part := hkey
    obtain ⟨val, rest, hvals⟩ := List.exists_cons_of_ne_nil (h _ he)
    refine ⟨val, (params_queryValues raw).mem_iff.1 (mem_params_iff.2 ⟨vals, he, ?_⟩)⟩
    rw [show vals = val :: rest from hvals]
    exact List.mem_cons_self
  · rintro h ⟨k, vals⟩ he hnil
    obtain ⟨part, hpart, hkey⟩ := mem_keys_queryValues.1 (List.mem_map.2 ⟨_, he, rfl⟩)
    obtain ⟨val, hval⟩ := h part hpart
    rw [hkey, ← (params_queryValues raw).mem_iff, mem_params_iff] at hval
    obtain ⟨vals', he', hmem⟩ := hval
    -- No two entries have the same key.
    have heq : ((k, vals') : Bytes × List Bytes) = (k, vals) :=
      List.inj_on_of_nodup_map (queryValues raw).nodup he' he rfl
    cases heq
    rw [show vals = [] from hnil] at hmem
    cases hmem

/-! ## Lengths -/

/-- The length of the text of parameters. -/
def paramsLength (params : List (Bytes × Bytes)) : ℕ :=
  (params.map fun kv => kv.1.length + kv.2.length + 2).sum

theorem length_buildQuery (sep : Byte) (params : List (Bytes × Bytes)) :
    (buildQuery sep params).length = paramsLength params := by
  induction params generalizing sep with
  | nil => rfl
  | cons kv params ih =>
    rw [buildQuery, paramsLength, List.map_cons, List.sum_cons, ← paramsLength]
    simp only [List.length_cons, List.length_append, ih]
    omega

theorem length_percentDecode_le (s : Bytes) : (percentDecode s).length ≤ s.length := by
  induction s using percentDecode.induct with
  | case1 hi lo s ih =>
    rw [percentDecode, if_pos rfl]
    simp only [List.length_cons]
    omega
  | case2 c hi lo s hc ih =>
    rw [percentDecode, if_neg hc]
    simpa using ih
  | case3 s h =>
    rcases s with _ | ⟨a, _ | ⟨b, _ | ⟨c, s⟩⟩⟩
    · exact le_rfl
    · exact le_rfl
    · exact le_rfl
    · exact absurd rfl (h a b c s)

theorem length_paramOf_le (h : paramOf part = some (key, val)) :
    key.length + val.length + 2 ≤ part.length + 1 := by
  obtain ⟨htext, -, -⟩ := cut_spec (sv "=") part
  rw [paramOf] at h
  obtain ⟨k, r, hcut⟩ : ∃ k r, cut (sv "=") part = (k, r) := ⟨_, _, rfl⟩
  rw [hcut] at h htext
  rcases r with _ | ⟨c, r⟩
  · cases h
  · cases h
    have hk := length_percentDecode_le k
    have hr := length_percentDecode_le r
    dsimp only at htext
    rw [← htext, List.length_append, List.length_cons]
    omega

/-- The number of parameters without a value. -/
def valueless (raw : Bytes) : ℕ := (queryParts raw).countP fun part => paramOf part = none

theorem paramsLength_filterMap_le (ps : List Bytes) :
    paramsLength (ps.filterMap paramOf) + ps.countP (fun part => paramOf part = none) ≤
      (ps.map fun part => part.length + 1).sum := by
  induction ps with
  | nil => exact le_rfl
  | cons part ps ih =>
    rw [List.map_cons, List.sum_cons]
    rcases hpart : paramOf part with _ | ⟨k, v⟩
    · rw [List.filterMap_cons_none hpart, List.countP_cons_of_pos (by simpa using hpart)]
      omega
    · have hlen := length_paramOf_le hpart
      rw [List.filterMap_cons_some hpart, List.countP_cons_of_neg (by simp [hpart]), paramsLength,
        List.map_cons, List.sum_cons, ← paramsLength]
      dsimp only
      omega

/-- The parameters of a query, with the separators behind them. -/
theorem sum_queryParts_le (raw : Bytes) :
    ((queryParts raw).map fun part => part.length + 1).sum ≤ raw.length + 1 := by
  induction raw using query_induction with
  | last part hpart =>
    rw [queryParts_of_not_mem hpart]
    split_ifs
    · simp
    · simp
  | append part rest hpart ih =>
    rw [queryParts_append hpart, List.map_cons, List.sum_cons, List.length_append, List.length_cons]
    omega

/-- What is written of the values of a query is no longer than what was read, and shorter if there was
    a parameter without a value. -/
theorem length_params_le {raw : Bytes} {order : List (Bytes × List Bytes)}
    (horder : order.Perm (queryValues raw).entries) :
    paramsLength (params order) + valueless raw ≤ raw.length + 1 := by
  have hlen : paramsLength (params order) = paramsLength ((queryParts raw).filterMap paramOf) :=
    ((params_perm horder).map _).sum_nat
  rw [hlen]
  exact (paramsLength_filterMap_le _).trans (sum_queryParts_le raw)

theorem forall_ne_nil_of_valueless {raw : Bytes} (h : valueless raw = 0) :
    ∀ e ∈ (queryValues raw).entries, e.2 ≠ [] := by
  rw [forall_ne_nil_iff]
  intro part hpart
  have hsome := List.countP_eq_zero.1 h part hpart
  rcases hparam : paramOf part with _ | ⟨k, v⟩
  · simp [hparam] at hsome
  · exact ⟨v, List.mem_filterMap.2 ⟨part, hpart, by rw [hparam, keyOf_of_some hparam]⟩⟩

/-! ## The characters of parameters -/

theorem not_mem_of_mem_queryParts {raw : Bytes} (h : part ∈ queryParts raw) :
    ch '&' ∉ part ∧ ∀ c ∈ part, c ∈ raw := by
  induction raw using query_induction with
  | last part' hpart' =>
    rw [queryParts_of_not_mem hpart'] at h
    split_ifs at h
    · cases h
    · rw [List.mem_singleton.1 h]
      exact ⟨hpart', fun _ hc => hc⟩
  | append part' rest hpart' ih =>
    rw [queryParts_append hpart', List.mem_cons] at h
    rcases h with rfl | h
    · exact ⟨hpart', fun _ hc => List.mem_append_left _ hc⟩
    · obtain ⟨hamp, hmem⟩ := ih h
      exact ⟨hamp, fun c hc => List.mem_append_right _ (List.mem_cons_of_mem _ (hmem c hc))⟩

theorem exists_mem_queryParts {raw : Bytes} {c : Byte} (hc : c ∈ raw) (hne : c ≠ ch '&') :
    ∃ part ∈ queryParts raw, c ∈ part := by
  induction raw using query_induction with
  | last part hpart =>
    rw [queryParts_of_not_mem hpart, if_neg (List.ne_nil_of_mem hc)]
    exact ⟨part, List.mem_singleton_self part, hc⟩
  | append part rest hpart ih =>
    rw [queryParts_append hpart]
    rcases List.mem_append.1 hc with hc | hc
    · exact ⟨part, List.mem_cons_self, hc⟩
    · obtain ⟨part', hpart', hc⟩ := ih ((List.mem_cons.1 hc).resolve_left hne)
      exact ⟨part', List.mem_cons_of_mem _ hpart', hc⟩

theorem queryParts_ne_nil {raw : Bytes} (hraw : raw ≠ []) : queryParts raw ≠ [] := by
  induction raw using query_induction with
  | last part hpart =>
    rw [queryParts_of_not_mem hpart, if_neg hraw]
    exact List.cons_ne_nil _ _
  | append part rest hpart _ =>
    rw [queryParts_append hpart]
    exact List.cons_ne_nil _ _

/-- A parameter without anything to decode. -/
theorem paramOf_cases (hpart : ch '%' ∉ part) :
    (ch '=' ∉ part ∧ paramOf part = none ∧ keyOf part = part) ∨
      ∃ key val, part = key ++ ch '=' :: val ∧ ch '=' ∉ key ∧ paramOf part = some (key, val) ∧
        keyOf part = key := by
  rw [paramOf, keyOf, show sv "=" = [ch '='] from rfl]
  rcases find_zero_cases part (ch '=') with ⟨hnot, -⟩ | ⟨key, val, rfl, hkey, -⟩
  · rw [cut_singleton_of_not_mem hnot]
    exact .inl ⟨hnot, rfl, percentDecode_of_not_mem hpart⟩
  · rw [List.mem_append, List.mem_cons, not_or, not_or] at hpart
    rw [cut_singleton_append hkey]
    dsimp only
    rw [percentDecode_of_not_mem hpart.1, percentDecode_of_not_mem hpart.2.2]
    exact .inr ⟨key, val, rfl, hkey, rfl, rfl⟩

/-- The key of a parameter without anything to decode ends at the first `=`. -/
theorem keyOf_spec (hpart : ch '%' ∉ part) : ch '=' ∉ keyOf part ∧ ∀ c ∈ keyOf part, c ∈ part := by
  rcases paramOf_cases hpart with ⟨hnot, -, hkey⟩ | ⟨key, val, rfl, hnot, -, hkey⟩
  · rw [hkey]
    exact ⟨hnot, fun _ hc => hc⟩
  · rw [hkey]
    exact ⟨hnot, fun _ hc => List.mem_append_left _ hc⟩

theorem mem_of_paramOf (hpart : ch '%' ∉ part) (h : paramOf part = some (key, val)) :
    ∀ c ∈ val, c ∈ part := by
  rcases paramOf_cases hpart with ⟨-, hnone, -⟩ | ⟨key', val', rfl, -, hsome, -⟩
  · rw [hnone] at h
    cases h
  · rw [hsome] at h
    cases h
    exact fun _ hc => List.mem_append_right _ (List.mem_cons_of_mem _ hc)

/-! ## The text of parameters -/

/-- The text of a parameter with a value. -/
def paramText (kv : Bytes × Bytes) : Bytes := kv.1 ++ ch '=' :: kv.2

theorem buildQuery_cons (sep : Byte) (kv : Bytes × Bytes) (params : List (Bytes × Bytes)) :
    buildQuery sep (kv :: params) = sep :: (paramText kv ++ buildQuery (ch '&') params) := by
  rw [buildQuery, paramText, List.append_assoc, List.cons_append]

/-- The characters of what is written are those of the parameters, and the separators. -/
theorem mem_buildQuery_iff {c : Byte} (hc : c ∉ sv "?&=") {sep : Byte} (hsep : sep ∈ sv "?&")
    {params : List (Bytes × Bytes)} :
    c ∈ buildQuery sep params ↔ ∃ kv ∈ params, c ∈ kv.1 ∨ c ∈ kv.2 := by
  have hne : ∀ d ∈ sv "?&=", c ≠ d := fun d hd h => hc (h ▸ hd)
  induction params generalizing sep with
  | nil => simp [buildQuery]
  | cons kv params ih =>
    have hsep' : c ≠ sep := hne sep ((by decide : ∀ d ∈ sv "?&", d ∈ sv "?&=") sep hsep)
    have heq : c ≠ ch '=' := hne _ (by decide)
    have hamp : ch '&' ∈ sv "?&" := by decide
    have hrest : c ∈ buildQuery (ch '&') params ↔ ∃ kv ∈ params, c ∈ kv.1 ∨ c ∈ kv.2 := ih hamp
    rw [buildQuery_cons, paramText, List.mem_cons, List.mem_append, List.mem_append, List.mem_cons,
      hrest, List.exists_mem_cons_iff]
    simp only [hsep', heq, false_or]

/-- The parameters of the text of parameters. -/
theorem queryParts_buildQuery {kv : Bytes × Bytes} {params : List (Bytes × Bytes)}
    (h : ∀ kv' ∈ kv :: params, ch '&' ∉ paramText kv') :
    queryParts (paramText kv ++ buildQuery (ch '&') params) = (kv :: params).map paramText := by
  induction params generalizing kv with
  | nil =>
    rw [buildQuery, List.append_nil, queryParts_of_not_mem (h kv List.mem_cons_self), if_neg]
    · rfl
    · simp [paramText]
  | cons kv' params ih =>
    rw [List.forall_mem_cons] at h
    rw [buildQuery_cons, queryParts_append h.1, ih h.2]
    rfl

theorem paramOf_paramText {kv : Bytes × Bytes} (hkey : ch '=' ∉ kv.1) (hkey' : ch '%' ∉ kv.1)
    (hval : ch '%' ∉ kv.2) : paramOf (paramText kv) = some kv := by
  rw [paramOf, paramText, show sv "=" = [ch '='] from rfl, cut_singleton_append hkey]
  dsimp only
  rw [percentDecode_of_not_mem hkey', percentDecode_of_not_mem hval]

/-! ## Keys and their values -/

/-- Nothing to decode in the parameters of a query. -/
theorem not_percent_of_mem_queryParts {raw : Bytes} (hraw : ch '%' ∉ raw) (h : part ∈ queryParts raw) :
    ch '%' ∉ part :=
  fun hc => hraw ((not_mem_of_mem_queryParts h).2 _ hc)

/-- Every parameter without a value has the key of one with a value. -/
def KeysHaveValues (raw : Bytes) : Prop :=
  ∀ part ∈ queryParts raw, ch '=' ∉ part → ∃ part' ∈ queryParts raw, part ++ sv "=" <+: part'

instance (raw : Bytes) : Decidable (KeysHaveValues raw) :=
  inferInstanceAs (Decidable (∀ part ∈ queryParts raw, _))

theorem exists_param_of_keysHaveValues {raw : Bytes} (hraw : ch '%' ∉ raw) (h : KeysHaveValues raw)
    (hpart : part ∈ queryParts raw) : ∃ val, (keyOf part, val) ∈ (queryParts raw).filterMap paramOf := by
  rcases paramOf_cases (not_percent_of_mem_queryParts hraw hpart) with
    ⟨hnot, -, hkey⟩ | ⟨key, val, rfl, hnot, hparam, hkey⟩
  · obtain ⟨part', hpart', val, htext⟩ := h part hpart hnot
    -- The key ends at the first `=`.
    have hparam' : paramOf part' = some (part, val) := by
      have hpercent := not_percent_of_mem_queryParts hraw hpart'
      rw [← htext, List.append_assoc, List.mem_append, not_or] at hpercent
      have hval : ch '%' ∉ val := fun hc => hpercent.2 (List.mem_append_right _ hc)
      rw [← htext, List.append_assoc]
      exact @paramOf_paramText (part, val) hnot hpercent.1 hval
    rw [hkey]
    exact ⟨val, List.mem_filterMap.2 ⟨part', hpart', hparam'⟩⟩
  · rw [hkey]
    exact ⟨val, List.mem_filterMap.2 ⟨_, hpart, hparam⟩⟩

/-- No key of a query is lost if and only if every key of its text has a value in it. -/
theorem forall_ne_nil_iff_keysHaveValues {raw : Bytes} (hraw : ch '%' ∉ raw) :
    (∀ e ∈ (queryValues raw).entries, e.2 ≠ []) ↔ KeysHaveValues raw := by
  rw [forall_ne_nil_iff]
  constructor
  · intro h part hpart hnot
    obtain ⟨val, hval⟩ := h part hpart
    obtain ⟨part', hpart', hparam⟩ := List.mem_filterMap.1 hval
    rcases paramOf_cases (not_percent_of_mem_queryParts hraw hpart) with
      ⟨-, -, hkey⟩ | ⟨key, val', rfl, -, -, -⟩
    · rcases paramOf_cases (not_percent_of_mem_queryParts hraw hpart') with
        ⟨-, hnone, -⟩ | ⟨key, val', rfl, -, hsome, -⟩
      · rw [hnone] at hparam
        cases hparam
      · rw [hsome, hkey] at hparam
        cases hparam
        refine ⟨_, hpart', val, ?_⟩
        rw [List.append_assoc]
        rfl
    · exact absurd (List.mem_append_right _ List.mem_cons_self) hnot
  · exact fun h part hpart => exists_param_of_keysHaveValues hraw h hpart

/-- The characters of the parameters that are written are in the text of the query. -/
theorem mem_of_mem_params {raw : Bytes} (hraw : ch '%' ∉ raw) {order : List (Bytes × List Bytes)}
    (horder : order.Perm (queryValues raw).entries) {c : Byte} {kv : Bytes × Bytes}
    (hkv : kv ∈ params order) (hc : c ∈ kv.1 ∨ c ∈ kv.2) : c ∈ raw := by
  have hperm := params_perm horder
  obtain ⟨part, hpart, hparam⟩ := List.mem_filterMap.1 (hperm.mem_iff.1 hkv)
  refine (not_mem_of_mem_queryParts hpart).2 c ?_
  have hpercent := not_percent_of_mem_queryParts hraw hpart
  rcases hc with hc | hc
  · rw [← keyOf_of_some hparam] at hc
    exact (keyOf_spec hpercent).2 c hc
  · exact mem_of_paramOf hpercent hparam c hc

/-- If no key is lost, then they are those of the text of the query. -/
theorem exists_mem_params_iff {raw : Bytes} (hraw : ch '%' ∉ raw) (h : KeysHaveValues raw)
    {order : List (Bytes × List Bytes)} (horder : order.Perm (queryValues raw).entries) {c : Byte}
    (hc : c ∉ sv "&=") : (∃ kv ∈ params order, c ∈ kv.1 ∨ c ∈ kv.2) ↔ c ∈ raw := by
  have hne : ∀ d ∈ sv "&=", c ≠ d := fun d hd h => hc (h ▸ hd)
  have hperm := params_perm horder
  constructor
  · rintro ⟨kv, hkv, hmem⟩
    exact mem_of_mem_params hraw horder hkv hmem
  · intro hmem
    obtain ⟨part, hpart, hmem⟩ := exists_mem_queryParts hmem (hne _ (by decide))
    rcases paramOf_cases (not_percent_of_mem_queryParts hraw hpart) with
      ⟨-, -, hkey⟩ | ⟨key, val, rfl, -, hsome, -⟩
    · obtain ⟨val, hval⟩ := exists_param_of_keysHaveValues hraw h hpart
      rw [hkey] at hval
      exact ⟨(part, val), hperm.mem_iff.2 hval, .inl hmem⟩
    · refine ⟨(key, val), hperm.mem_iff.2 (List.mem_filterMap.2 ⟨_, hpart, hsome⟩), ?_⟩
      rw [List.mem_append, List.mem_cons] at hmem
      exact hmem.imp_right fun h => h.resolve_left (hne _ (by decide))

/-- If no key is lost, then something is written of every query. -/
theorem params_ne_nil {raw : Bytes} (hraw : ch '%' ∉ raw) (h : KeysHaveValues raw) (hne : raw ≠ [])
    {order : List (Bytes × List Bytes)} (horder : order.Perm (queryValues raw).entries) :
    params order ≠ [] := by
  have hperm := params_perm horder
  obtain ⟨part, rest, hcons⟩ := List.exists_cons_of_ne_nil (queryParts_ne_nil hne)
  have hpart : part ∈ queryParts raw := hcons ▸ List.mem_cons_self
  obtain ⟨val, hval⟩ := exists_param_of_keysHaveValues hraw h hpart
  exact List.ne_nil_of_mem (hperm.mem_iff.2 hval)

/-! ## Reading what is written -/

/-- Adding the parameters of a text one by one. -/
theorem queryValues_buildQuery {kv : Bytes × Bytes} {params : List (Bytes × Bytes)}
    (hamp : ∀ kv' ∈ kv :: params, ch '&' ∉ paramText kv')
    (hparam : ∀ kv' ∈ kv :: params, paramOf (paramText kv') = some kv') :
    queryValues (paramText kv ++ buildQuery (ch '&') params) = .addAll .empty (kv :: params) := by
  rw [queryValues, queryParts_buildQuery hamp, KeyedMap.addAll, List.foldl_map]
  refine List.foldl_ext _ _ _ fun query kv' hkv' => ?_
  exact addPart_of_some (hparam kv' hkv')

end Params

end Cppnet.Url
