import Cppnet.Http.ChunkedReader
import Cppnet.Http.Headers
import Cppnet.Io.LimitReader
import Cppnet.Url.Basic

/-!
# Requests and responses

`http/http.hpp`, `http/request.hpp`, `http/response.hpp`: the methods, the versions and
the status codes of the protocol, with their texts, and the messages.
-/

namespace Cppnet.Http

open Lib Io Util

/-- `protocol_version`. -/
@[ext] structure ProtocolVersion where
  major : UInt32 := 0
  minor : UInt32 := 0
  deriving DecidableEq, Repr

/-! ## Methods -/

/-- `request_method`. -/
inductive RequestMethod
  | connect
  | delete
  | get
  | head
  | options
  | patch
  | post
  | put
  | trace
  | none
  deriving DecidableEq, Repr

/-- `parse_method`. -/
def parseMethod (str : Bytes) : RequestMethod :=
  if equalIgnoreCase str (sv "CONNECT") then .connect
  else if equalIgnoreCase str (sv "DELETE") then .delete
  else if equalIgnoreCase str (sv "GET") then .get
  else if equalIgnoreCase str (sv "HEAD") then .head
  else if equalIgnoreCase str (sv "OPTIONS") then .options
  else if equalIgnoreCase str (sv "PATCH") then .patch
  else if equalIgnoreCase str (sv "POST") then .post
  else if equalIgnoreCase str (sv "PUT") then .put
  else if equalIgnoreCase str (sv "TRACE") then .trace
  else .none

/-- `method_string`. -/
def methodString : RequestMethod → Bytes
  | .connect => sv "CONNECT"
  | .delete => sv "DELETE"
  | .get => sv "GET"
  | .head => sv "HEAD"
  | .options => sv "OPTIONS"
  | .patch => sv "PATCH"
  | .post => sv "POST"
  | .put => sv "PUT"
  | .trace => sv "TRACE"
  | .none => sv "NONE"

/-- What the names of the methods have nothing of. -/
theorem not_mem_methodString (m : RequestMethod) : ∀ c ∈ [10, 13, ch ' ', ch ':'], c ∉ methodString m := by
  cases m <;> decide

/-- The names of the methods, and the bytes they have nothing of. -/
theorem parseMethod_methodString (m : RequestMethod) :
    parseMethod (methodString m) = m ∧ ch ' ' ∉ methodString m ∧ 10 ∉ methodString m := by
  cases m <;> decide

theorem lower_eq_of_ite {s name : Bytes} {m m' : RequestMethod} (hname : name = methodString m)
    (hrest : m' ≠ .none → lower s = lower (methodString m')) :
    (if equalIgnoreCase s name then m else m') ≠ .none →
      lower s = lower (methodString (if equalIgnoreCase s name then m else m')) := by
  split_ifs with heq
  · intro _
    rw [← hname]
    exact equalIgnoreCase_iff.1 heq
  · exact hrest

/-- What is read as a method is its name. -/
theorem lower_eq_of_parseMethod {s : Bytes} (h : parseMethod s ≠ .none) :
    lower s = lower (methodString (parseMethod s)) := by
  revert h
  rw [parseMethod]
  -- One name after the other.
  iterate 9 refine lower_eq_of_ite rfl ?_
  exact fun h => absurd rfl h

/-- A text with a byte that no method has in its name is no method. -/
theorem parseMethod_of_mem {c : Byte} (hc : c ∈ [10, 13, ch ' ', ch ':']) {s : Bytes} (h : c ∈ s) :
    parseMethod s = .none := by
  by_contra hne
  have hletter : NoLetter c := (by decide : ∀ c ∈ [10, 13, ch ' ', ch ':'], NoLetter c) c hc
  rw [← mem_lower_iff hletter, lower_eq_of_parseMethod hne, mem_lower_iff hletter] at h
  exact not_mem_methodString _ c hc h

/-! ## Status codes -/

/-- `status`: a `std::uint32_t`, whose named values are those of `statusTexts`. -/
abbrev Status := UInt32

namespace Status

/-- The value 0, named `NONE`. -/
def none : Status := 0

def switchingProtocols : Status := 101

def httpVersionNotSupported : Status := 505

end Status

/-- The cases of `status_text`. -/
def statusTexts : List (Status × Bytes) :=
  [(100, sv "100 Continue"),
    (101, sv "101 Switching Protocols"),
    (102, sv "102 Processing"),
    (200, sv "200 OK"),
    (201, sv "201 Created"),
    (202, sv "202 Accepted"),
    (203, sv "203 Non-Authoritative Information"),
    (204, sv "204 No Content"),
    (205, sv "205 Reset Content"),
    (206, sv "206 Partial Content"),
    (207, sv "207 Multi-Status"),
    (208, sv "208 Already Reported"),
    (226, sv "226 IM Used"),
    (300, sv "300 Multiple Choices"),
    (301, sv "301 Moved Permanently"),
    (302, sv "302 Found"),
    (303, sv "303 See Other"),
    (304, sv "304 Not Modified"),
    (305, sv "305 Use Proxy"),
    (307, sv "307 Temporary Redirect"),
    (308, sv "308 Permanent Redirect"),
    (400, sv "400 Bad Request"),
    (401, sv "401 Unauthorized"),
    (402, sv "402 Payment Required"),
    (403, sv "403 Forbidden"),
    (404, sv "404 Not Found"),
    (405, sv "405 Method Not Allowed"),
    (406, sv "406 Not Acceptable"),
    (407, sv "407 Proxy Authentication Required"),
    (408, sv "408 Request Timeout"),
    (409, sv "409 Conflict"),
    (410, sv "410 Gone"),
    (411, sv "411 Length Required"),
    (412, sv "412 Precondition Failed"),
    (413, sv "413 Payload Too Large"),
    (414, sv "414 Request-Uri Too Long"),
    (415, sv "415 Unsupported Media Type"),
    (416, sv "416 Requested Range Not Satisfiable"),
    (417, sv "417 Expectation Failed"),
    (418, sv "418 I'm A Teapot"),
    (421, sv "421 Misdirected Request"),
    (422, sv "422 Unprocessable Entity"),
    (423, sv "423 Locked"),
    (424, sv "424 Failed Dependency"),
    (426, sv "426 Upgrade Required"),
    (428, sv "428 Precondition Required"),
    (429, sv "429 Too Many Requests"),
    (431, sv "431 Request Header Fields Too Large"),
    (444, sv "444 Connection Closed Without Response"),
    (451, sv "451 Unavailable For Legal Reasons"),
    (499, sv "499 Client Closed Request"),
    (500, sv "500 Internal Server Error"),
    (501, sv "501 Not Implemented"),
    (502, sv "502 Bad Gateway"),
    (503, sv "503 Service Unavailable"),
    (504, sv "504 Gateway Timeout"),
    (505, sv "505 Http Version Not Supported"),
    (506, sv "506 Variant Also Negotiates"),
    (507, sv "507 Insufficient Storage"),
    (508, sv "508 Loop Detected"),
    (510, sv "510 Not Extended"),
    (511, sv "511 Network Authentication Required"),
    (599, sv "599 Network Connect Timeout Error")]

/-- `status_text`. -/
def statusText (s : Status) : Bytes :=
  ((statusTexts.find? fun e => e.1 = s).map Prod.snd).getD (sv "XXX Unknown")

/-- One of the named status codes other than `NONE`. -/
def Status.Named (s : Status) : Prop := s ∈ statusTexts.map Prod.fst

instance (s : Status) : Decidable s.Named := inferInstanceAs (Decidable (_ ∈ _))

/-- `parse_status`. -/
def parseStatus (str : Bytes) : Status :=
  match fromChars 32 10 str with
  | .ok v => UInt32.ofNat v
  | .error _ => Status.none

/-- The number of a status code in a text of it. -/
structure StatusLine (s : Status) (number reason : Bytes) : Prop where
  isNumeral : IsNumeral number
  value : numeralValue 10 (digits 10 number) = s.toNat
  reason : 10 ∉ reason
  ne_none : s ≠ Status.none

theorem mem_statusTexts {s : Status} (hs : s.Named) : (s, statusText s) ∈ statusTexts := by
  obtain ⟨e, he, hes⟩ := List.mem_map.1 hs
  have hsome : (statusTexts.find? fun e => e.1 = s).isSome :=
    List.find?_isSome.2 ⟨e, he, decide_eq_true hes⟩
  obtain ⟨e', he'⟩ := Option.isSome_iff_exists.1 hsome
  have hes' : e'.1 = s := by simpa using List.find?_some he'
  rw [statusText, he', Option.map_some, Option.getD_some, ← hes']
  exact List.mem_of_find?_eq_some he'

/-- Three digits, a space, and a reason. -/
def isStatusText (s : Status) : Bytes → Bool
  | a :: b :: c :: d :: reason =>
    IsNumeral [a, b, c] ∧ numeralValue 10 (digits 10 [a, b, c]) = s.toNat ∧ d = ch ' ' ∧ 10 ∉ reason
  | _ => false

/-- The text of a named status code is its number, a space, and a reason. -/
theorem statusText_eq {s : Status} (hs : s.Named) :
    ∃ number reason, statusText s = number ++ ch ' ' :: reason ∧ StatusLine s number reason := by
  have h : ∀ e ∈ statusTexts, isStatusText e.1 e.2 ∧ e.1 ≠ Status.none := by decide +kernel
  obtain ⟨htext, hne⟩ := h _ (mem_statusTexts hs)
  rcases hr : statusText s with _ | ⟨a, _ | ⟨b, _ | ⟨c, _ | ⟨d, reason⟩⟩⟩⟩ <;> rw [hr] at htext
  case cons.cons.cons.cons =>
    obtain ⟨hnum, hval, rfl, hreason⟩ := of_decide_eq_true htext
    exact ⟨[a, b, c], reason, rfl, hnum, hval, hreason, hne⟩
  all_goals cases htext

/-! ## Messages -/

/-- The body of a message received: the rest of what its reader holds, up to a length, or
    in chunks. -/
inductive Body (σ : Type*)
  | limit (r : LimitReader (BufferedReader σ))
  | chunked (r : ChunkedReader (BufferedReader σ))

namespace Body

variable {σ : Type*} [Reader σ Byte ErrorCondition]

/-- The virtual call of `read`. -/
def read (body : Body σ) (data : Bytes) : Option (Result × Bytes × Body σ) :=
  match body with
  | .limit r => (r.read data).map fun (res, data, r) => (res, data, .limit r)
  | .chunked r => (r.read data).map fun (res, data, r) => (res, data, .chunked r)

/-- Reads into spans, one after the other: what was delivered, and the body after it. -/
def reads (body : Body σ) : List Bytes → Option (Bytes × Body σ)
  | [] => some ([], body)
  | d :: ds => (body.read d).bind fun (res, d', body) =>
      (body.reads ds).map fun (out, body) => (d'.take res.count ++ out, body)

theorem reads_limit (r : LimitReader (BufferedReader σ)) (ds : List Bytes) :
    (Body.limit r).reads ds = (Lib.reads r ds).map fun (out, r) => (out, .limit r) := by
  induction ds generalizing r with
  | nil => rfl
  | cons d ds ih =>
    rw [reads, read, Lib.reads]
    change _ = ((r.read d).bind _).map _
    rcases r.read d with _ | ⟨res, d', r₁⟩
    · rfl
    · simp only [Option.map_some, Option.bind_some, ih, Option.map_map]
      rfl

/-- The parent of the buffered reader a body reads from. -/
def impl : Body σ → σ
  | .limit r => r.parent.impl
  | .chunked r => r.parent.impl

end Body

/-- `client_request`, without its body, which is not sent. -/
structure ClientRequest where
  method : RequestMethod := .none
  version : ProtocolVersion := {}
  uri : Url := {}
  headers : Headers := .empty

/-- `server_request`, without its body. -/
structure ServerRequest where
  method : RequestMethod := .none
  version : ProtocolVersion := {}
  uri : Url := {}
  headers : Headers := .empty
  deriving DecidableEq

/-- `client_response`, without its body. -/
structure ClientResponse where
  version : ProtocolVersion := {}
  statusCode : Status := Status.none
  headers : Headers := .empty
  deriving DecidableEq

/-- `server_response`, without the writer of its body. -/
structure ServerResponse where
  version : ProtocolVersion := {}
  statusCode : Status := Status.none
  headers : Headers := .empty
  deriving DecidableEq

end Cppnet.Http
