import Cppnet.Http.Headers

/-!
# `content_type`

`http/headers.cpp`: the type of a content and its parameters, as they are read from the headers and written to them.

What is read as the parameters of a value are the parameters behind its type, in quotes or not
(`foldl_addParameter_texts`). Its type is all of the value, though, and not what is in front of the parameters
(`getContentType_text_iff`). What is written has colons in front of the parameters where semicolons are read, so that
a type with parameters does not come back as it was (`setContentType_getContentType_iff`).
-/

namespace Cppnet.Http

open Lib Util

/-- `content_type`. -/
structure ContentType where
  type : Bytes
  parameters : KeyedMap (id : Bytes → Bytes) Bytes := .empty
  deriving DecidableEq

namespace ContentType

/-- `std::unordered_map::emplace`, into the parameters: the value of a key that is there stays. -/
def emplace (parameters : KeyedMap (id : Bytes → Bytes) Bytes) (key val : Bytes) :
    KeyedMap (id : Bytes → Bytes) Bytes :=
  parameters.alter key val id

/-- The parameter `charset` does not mind the case. -/
def standardized (key val : Bytes) : Bytes × Bytes :=
  if equalIgnoreCase key (sv "charset") then (lower key, lower val) else (key, val)

/-- A turn of the loop of `get_content_type`. -/
def addParameter (parameters : KeyedMap (id : Bytes → Bytes) Bytes) (param : Bytes) :
    KeyedMap (id : Bytes → Bytes) Bytes :=
  match find param (ch '=') 0 with
  | none => emplace parameters param []
  | some kvSplit =>
    let key := trimString (param.take kvSplit)
    let val := unquote (trimString (param.drop (kvSplit + 1)))
    emplace parameters (standardized key val).1 (standardized key val).2

end ContentType

namespace Headers

/-- `get_content_type`. -/
def getContentType (headers : Headers) : Option ContentType :=
  (headers.get (sv "Content-Type")).map fun type =>
    match find type (ch ';') 0 with
    | none => { type }
    | some split =>
      { type, parameters := (splitString type (ch ';') (split + 1)).foldl ContentType.addParameter .empty }

/-- `set_content_type`, with the parameters in the order the map is iterated in. -/
def setContentType (headers : Headers) (contentType : ContentType) (order : List (Bytes × Bytes)) : Headers :=
  -- nothing to add
  if contentType.type = [] then headers
  else
    headers.set (sv "Content-Type")
      (contentType.type ++ order.flatMap fun param => sv ": " ++ param.1 ++ sv "=" ++ param.2)

end Headers

namespace ContentType

/-! ## Texts with parameters -/

/-- A text without whitespace, delimiters and quotes. -/
structure IsToken (s : Bytes) : Prop where
  ne_nil : s ≠ []
  not_mem : ∀ c ∈ s, c ∉ whitespace ++ sv ";=," ++ quotes

instance (s : Bytes) : Decidable (IsToken s) :=
  decidable_of_iff (s ≠ [] ∧ ∀ c ∈ s, c ∉ whitespace ++ sv ";=," ++ quotes)
    ⟨fun h => ⟨h.1, h.2⟩, fun h => ⟨h.ne_nil, h.not_mem⟩⟩

/-- A parameter, as it stands in a text. -/
structure Parameter where
  key : Bytes
  val : Bytes
  quoted : Bool

namespace Parameter

/-- The value, in quotes if it is so. -/
def valText (p : Parameter) : Bytes := if p.quoted then ch '"' :: (p.val ++ [ch '"']) else p.val

/-- The text behind the semicolon in front of a parameter. -/
def text (p : Parameter) : Bytes := ch ' ' :: (p.key ++ ch '=' :: p.valText)

/-- The key and the value of the parameter. -/
def entry (p : Parameter) : Bytes × Bytes := standardized p.key p.val

/-- The key and the value are tokens. -/
structure Tokens (p : Parameter) : Prop where
  key : IsToken p.key
  val : IsToken p.val

instance (p : Parameter) : Decidable p.Tokens :=
  decidable_of_iff (IsToken p.key ∧ IsToken p.val) ⟨fun h => ⟨h.1, h.2⟩, fun h => ⟨h.key, h.val⟩⟩

end Parameter

/-- A type, and a semicolon, a space and a text for every parameter. -/
def text (type : Bytes) (params : List Parameter) : Bytes := type ++ params.flatMap fun p => ch ';' :: p.text

section Texts

variable {s : Bytes} {p : Parameter} {parameters : KeyedMap (id : Bytes → Bytes) Bytes}

theorem IsToken.not_mem_of_mem (hs : IsToken s) {c : Byte} (hc : c ∈ whitespace ++ sv ";=," ++ quotes) : c ∉ s :=
  fun h => hs.not_mem c h hc

theorem IsToken.trimmed (hs : IsToken s) : Trimmed s := by
  refine ⟨fun b hb hw => ?_, fun b hb hw => ?_⟩
  · exact hs.not_mem b (List.mem_of_mem_head? hb) (List.mem_append_left _ (List.mem_append_left _ hw))
  · exact hs.not_mem b (List.mem_of_mem_getLast? hb) (List.mem_append_left _ (List.mem_append_left _ hw))

/-- Quotes are no whitespace, and make no difference. -/
theorem unquote_trimString_valText (hp : p.Tokens) : unquote (trimString p.valText) = p.val := by
  rw [Parameter.valText]
  split_ifs
  · have htrimmed : Trimmed (ch '"' :: (p.val ++ [ch '"'])) := by
      refine ⟨?_, ?_⟩
      · simp only [List.head?_cons, Option.mem_some_iff, forall_eq']
        decide
      · rw [← List.cons_append, List.getLast?_append_of_ne_nil _ (by simp), List.getLast?_singleton]
        simp only [Option.mem_some_iff, forall_eq']
        decide
    rw [trimString_of_trimmed htrimmed, unquote_quoted (by decide) hp.val.ne_nil]
  · rw [trimString_of_trimmed hp.val.trimmed]
    refine unquote_of_head fun c hc hquote => ?_
    exact hp.val.not_mem c (List.mem_of_mem_head? hc) (List.mem_append_right _ hquote)

/-- A parameter is read as it is meant. -/
theorem addParameter_text (hp : p.Tokens) :
    addParameter parameters p.text = emplace parameters p.entry.1 p.entry.2 := by
  have hequal : ch '=' ∉ ch ' ' :: p.key := by
    rw [List.mem_cons, not_or]
    exact ⟨by decide, hp.key.not_mem_of_mem (by decide)⟩
  rw [addParameter, Parameter.text, ← List.cons_append, find_zero_eq_some _ hequal]
  dsimp only
  rw [List.take_left, drop_append_cons, trimString_space hp.key.ne_nil hp.key.trimmed,
    unquote_trimString_valText hp]
  rfl

theorem semicolon_not_mem_text (hp : p.Tokens) : ch ';' ∉ p.text := by
  have hkey : ch ';' ∉ p.key := hp.key.not_mem_of_mem (by decide)
  have hval : ch ';' ∉ p.val := hp.val.not_mem_of_mem (by decide)
  have hchars : ch ';' ≠ ch ' ' ∧ ch ';' ≠ ch '=' ∧ ch ';' ≠ ch '"' := by decide
  rw [Parameter.text, Parameter.valText]
  split_ifs <;> simp [hkey, hval, hchars]

/-- The texts of the parameters are what is between the semicolons. -/
theorem splitOn_texts {params : List Parameter} (hp : p.Tokens) (hparams : ∀ p ∈ params, p.Tokens) :
    (p.text ++ params.flatMap fun p => ch ';' :: p.text).splitOn (ch ';') = (p :: params).map Parameter.text := by
  induction params generalizing p with
  | nil => simpa using List.splitOn_eq_singleton (semicolon_not_mem_text hp)
  | cons p' params ih =>
    obtain ⟨hp', hparams⟩ := List.forall_mem_cons.1 hparams
    rw [List.flatMap_cons, List.cons_append, List.splitOn_append_cons_self_of_not_mem (semicolon_not_mem_text hp),
      ih hp' hparams]
    rfl

/-- Reading the parameters one after the other, with a key for each of them. -/
theorem foldl_addParameter_texts {params : List Parameter} (hparams : ∀ p ∈ params, p.Tokens)
    (hkeys : (parameters.entries ++ params.map Parameter.entry).map Prod.fst |>.Nodup) :
    ((params.map Parameter.text).foldl addParameter parameters).entries =
      parameters.entries ++ params.map Parameter.entry := by
  induction params generalizing parameters with
  | nil => simp
  | cons p params ih =>
    obtain ⟨hp, hparams⟩ := List.forall_mem_cons.1 hparams
    have hnew : p.entry.1 ∉ parameters.keys := by
      rw [List.map_append, List.nodup_append] at hkeys
      exact fun h => hkeys.2.2 _ h _ (by simp) rfl
    have hentries : (emplace parameters p.entry.1 p.entry.2).entries = parameters.entries ++ [p.entry] :=
      KeyedMap.entries_alter_of_not_mem hnew p.entry.2 id
    rw [List.map_cons, List.foldl_cons, addParameter_text hp, ih hparams, hentries, List.map_cons, List.append_assoc,
      List.singleton_append]
    rwa [hentries, List.append_assoc, List.singleton_append]

end Texts

end ContentType

/-! ## Types with parameters -/

namespace Headers

open ContentType

variable {headers : Headers} {type : Bytes} {params : List Parameter}

/-- A value without a semicolon is a type. -/
theorem getContentType_of_not_mem (hget : headers.get (sv "Content-Type") = some type) (htype : ch ';' ∉ type) :
    headers.getContentType = some { type } := by
  rw [getContentType, hget, Option.map_some, find_zero_eq_none htype]

/-- A value with parameters: its type is all of it. -/
theorem getContentType_text (htype : IsToken type) (hparams : ∀ p ∈ params, p.Tokens)
    (hget : headers.get (sv "Content-Type") = some (ContentType.text type params)) :
    headers.getContentType =
      some { type := ContentType.text type params,
             parameters := (params.map Parameter.text).foldl addParameter .empty } := by
  have hsemicolon : ch ';' ∉ type := htype.not_mem_of_mem (by decide)
  rcases params with _ | ⟨p, params⟩
  · rw [ContentType.text, List.flatMap_nil, List.append_nil] at hget ⊢
    exact getContentType_of_not_mem hget hsemicolon
  · obtain ⟨hp, hparams⟩ := List.forall_mem_cons.1 hparams
    have htext : ContentType.text type (p :: params) =
        type ++ ch ';' :: (p.text ++ params.flatMap fun p => ch ';' :: p.text) := by
      rw [ContentType.text, List.flatMap_cons, List.cons_append]
    have hle : type.length + 1 ≤ (ContentType.text type (p :: params)).length := by simp [htext]
    rw [getContentType, hget, Option.map_some, htext, find_zero_eq_some _ hsemicolon]
    dsimp only
    rw [splitString_eq _ _ (htext ▸ hle), drop_append_cons, splitOn_texts hp hparams]

/-- A type and parameters, in quotes or not, are read as they are meant if and only if there are no parameters. The
    parameters themselves are, if their keys are distinct. -/
theorem getContentType_text_iff (headers : Headers) (type : Bytes) (params : List Parameter) (htype : IsToken type)
    (hparams : ∀ p ∈ params, p.Tokens)
    (hget : headers.get (sv "Content-Type") = some (ContentType.text type params)) :
    ((∃ contentType, headers.getContentType = some contentType ∧ contentType.type = type ∧
      contentType.parameters.entries.Perm (params.map Parameter.entry)) ↔ params = []) ∧
    ((params.map fun p => p.entry.1).Nodup → ∃ contentType, headers.getContentType = some contentType ∧
      contentType.parameters.entries = params.map Parameter.entry) := by
  have hcontent := getContentType_text htype hparams hget
  refine ⟨⟨?_, ?_⟩, fun hkeys => ⟨_, hcontent, ?_⟩⟩
  · rintro ⟨contentType, hsome, heq, -⟩
    rw [hcontent, Option.some_inj] at hsome
    subst hsome
    -- A parameter is in the type as well, which is too long then.
    have hnil : (params.flatMap fun p => ch ';' :: p.text) = [] := List.append_right_eq_self.1 heq
    rcases params with _ | ⟨p, params⟩
    · rfl
    · cases hnil
  · rintro rfl
    refine ⟨_, hcontent, ?_, List.Perm.refl _⟩
    rw [ContentType.text, List.flatMap_nil, List.append_nil]
  · have hnodup : (((KeyedMap.empty : KeyedMap (id : Bytes → Bytes) Bytes).entries ++
        params.map Parameter.entry).map Prod.fst).Nodup := by
      change ((params.map Parameter.entry).map Prod.fst).Nodup
      rwa [List.map_map]
    exact foldl_addParameter_texts hparams hnodup

/-- A type and two parameters in the headers. -/
def plainText : Headers := .addAll .empty [(sv "content-type", sv "text/plain; Charset=\"UTF-8\"; a=b")]

theorem getContentType_text_iff_plain :
    plainText.get (sv "Content-Type") =
        some (ContentType.text (sv "text/plain") [⟨sv "Charset", sv "UTF-8", true⟩, ⟨sv "a", sv "b", false⟩]) ∧
      ∃ contentType, plainText.getContentType = some contentType ∧
        contentType.parameters.entries = [(sv "charset", sv "utf-8"), (sv "a", sv "b")] := by
  have hget : plainText.get (sv "Content-Type") =
      some (ContentType.text (sv "text/plain") [⟨sv "Charset", sv "UTF-8", true⟩, ⟨sv "a", sv "b", false⟩]) := by
    decide +kernel
  exact ⟨hget, (getContentType_text_iff _ _ _ (by decide +kernel) (by decide +kernel) hget).2 (by decide +kernel)⟩

/-- The type is `text/plain; Charset="UTF-8"; a=b` there. -/
theorem getContentType_plain :
    ¬∀ (headers : Headers) (type : Bytes) (params : List Parameter), IsToken type → (∀ p ∈ params, p.Tokens) →
      (params.map Parameter.key).Nodup →
      headers.get (sv "Content-Type") = some (ContentType.text type params) →
      ∃ contentType, headers.getContentType = some contentType ∧ contentType.type = type ∧
        contentType.parameters.entries.Perm (params.map Parameter.entry) := by
  intro h
  obtain ⟨contentType, hsome, htype, -⟩ := h plainText (sv "text/plain")
    [⟨sv "Charset", sv "UTF-8", true⟩, ⟨sv "a", sv "b", false⟩] (by decide +kernel) (by decide +kernel)
    (by decide +kernel) (by decide +kernel)
  have hwhole : (plainText.getContentType.map ContentType.type) =
      some (sv "text/plain; Charset=\"UTF-8\"; a=b") := by decide +kernel
  rw [hsome, Option.map_some, htype] at hwhole
  exact absurd hwhole (by decide)

/-- Keys and values in lower case. -/
structure LowerTokens (param : Bytes × Bytes) : Prop where
  key : IsToken param.1 ∧ lower param.1 = param.1
  val : IsToken param.2 ∧ lower param.2 = param.2

/-- What is written is one type, with nothing that is read as a parameter. -/
theorem getContentType_setContentType (headers : Headers) {contentType : ContentType} {order : List (Bytes × Bytes)}
    (htype : IsToken contentType.type) (hparams : ∀ param ∈ order, LowerTokens param) :
    (headers.setContentType contentType order).getContentType =
      some { type := contentType.type ++ order.flatMap fun param => sv ": " ++ param.1 ++ sv "=" ++ param.2 } := by
  rw [setContentType, if_neg htype.ne_nil]
  refine getContentType_of_not_mem (by rw [get_set, if_pos rfl]) ?_
  rw [List.mem_append, List.mem_flatMap, not_or]
  refine ⟨htype.not_mem_of_mem (by decide), ?_⟩
  rintro ⟨param, hparam, hmem⟩
  have hkey : ch ';' ∉ param.1 := (hparams param hparam).key.1.not_mem_of_mem (by decide)
  have hval : ch ';' ∉ param.2 := (hparams param hparam).val.1.not_mem_of_mem (by decide)
  have hchars : ch ';' ∉ sv ": " ∧ ch ';' ∉ sv "=" := by decide
  simp [hkey, hval, hchars] at hmem

/-- A type comes back as it was written if and only if it has no parameters. -/
theorem setContentType_getContentType_iff (headers : Headers) (contentType : ContentType)
    (order : List (Bytes × Bytes)) (htype : IsToken contentType.type)
    (hparams : ∀ param ∈ contentType.parameters.entries, LowerTokens param)
    (horder : order.Perm contentType.parameters.entries) :
    (∃ contentType', (headers.setContentType contentType order).getContentType = some contentType' ∧
      contentType'.type = contentType.type ∧ contentType'.parameters.Same contentType.parameters) ↔
      contentType.parameters.entries = [] := by
  have hget := getContentType_setContentType headers htype fun param hparam =>
    hparams param (horder.mem_iff.1 hparam)
  constructor
  · rintro ⟨contentType', hsome, -, hsame⟩
    rw [hget, Option.some_inj] at hsome
    subst hsome
    exact hsame.symm.eq_nil
  · intro hnil
    obtain rfl : order = [] := (hnil ▸ horder).eq_nil
    refine ⟨_, hget, List.append_nil _, ?_⟩
    rw [KeyedMap.Same, hnil]
    rfl

theorem setContentType_getContentType_iff_html :
    ∃ contentType', (setContentType .empty { type := sv "text/html" } []).getContentType = some contentType' ∧
      contentType'.type = sv "text/html" ∧ contentType'.parameters.Same .empty :=
  (setContentType_getContentType_iff .empty { type := sv "text/html" } [] (by decide +kernel) (by rintro _ ⟨⟩)
    (List.Perm.refl _)).2 rfl

/-- The type `text/html` with the parameter `a=b` is written as `text/html: a=b`. -/
theorem setContentType_getContentType_html :
    ¬∀ (headers : Headers) (contentType : ContentType) (order : List (Bytes × Bytes)), IsToken contentType.type →
      (∀ param ∈ contentType.parameters.entries, LowerTokens param) → order.Perm contentType.parameters.entries →
      ∃ contentType', (headers.setContentType contentType order).getContentType = some contentType' ∧
        contentType'.type = contentType.type ∧ contentType'.parameters.Same contentType.parameters := by
  intro h
  have hab : ∀ param ∈ (emplace .empty (sv "a") (sv "b")).entries, LowerTokens param := by
    intro param hparam
    rw [List.mem_singleton.1 hparam]
    exact ⟨by decide +kernel, by decide +kernel⟩
  obtain ⟨contentType', hsome, htype, -⟩ :=
    h .empty ⟨sv "text/html", emplace .empty (sv "a") (sv "b")⟩ [(sv "a", sv "b")] (by decide +kernel) hab
      (List.Perm.refl _)
  have hwhole : (setContentType .empty ⟨sv "text/html", emplace .empty (sv "a") (sv "b")⟩
      [(sv "a", sv "b")]).getContentType.map ContentType.type = some (sv "text/html: a=b") := by decide +kernel
  rw [hsome, Option.map_some, htype] at hwhole
  exact absurd hwhole (by decide)

end Headers

end Cppnet.Http
