import Cppnet.Lib.KeyedMap
import Cppnet.Util.StringUtil

/-!
# `headers`

`http/headers.cpp`: a map from keys to lists of values, with keys compared ignoring
case. An entry keeps the key it was first inserted with.
-/

namespace Cppnet.Http

open Lib Util

/-- `headers`: the keys are compared by `keyequal`, ignoring case. -/
abbrev Headers := KeyedMap lower (List Bytes)

namespace Headers

/-- `add`: one more value for the key. -/
def add (headers : Headers) (key val : Bytes) : Headers := headers.push key val

/-- `set`: the value of the key, in place of those it has. -/
def set (headers : Headers) (key val : Bytes) : Headers := headers.alter key [] fun _ => [val]

/-- `set_content_length`. -/
def setContentLength (headers : Headers) (length : ℕ) : Headers :=
  headers.set (sv "Content-Length") (toString length)

/-- `get`: the first value of the key. -/
def get (headers : Headers) (key : Bytes) : Option Bytes := (headers.find? key).bind List.head?

/-- `get_all`: the values of the key. -/
def getAll (headers : Headers) (key : Bytes) : Option (List Bytes) := headers.find? key

/-- `get_content_length`, as a `std::size_t`. -/
def getContentLength (headers : Headers) : Option ℕ :=
  (headers.get (sv "Content-Length")).bind fun s => (fromChars 64 10 s).toOption

/-- `get_transfer_encoding`. -/
def getTransferEncoding (headers : Headers) : Option (List Bytes) :=
  headers.getAll (sv "Transfer-Encoding")

/-- `is_chunked`. -/
def isChunked (headers : Headers) : Bool :=
  (headers.getTransferEncoding.map fun vals =>
    vals.any fun val => equalIgnoreCase (trimString val) (sv "chunked")).getD false

theorem get_set (headers : Headers) (key val key' : Bytes) :
    (headers.set key val).get key' = if lower key = lower key' then some val else headers.get key' := by
  rw [get, set, KeyedMap.find?_alter]
  split_ifs with h
  · rfl
  · rfl

/-- Without a key for it, a message is not chunked. -/
theorem isChunked_eq_false {headers : Headers} (h : headers.find? (sv "Transfer-Encoding") = none) :
    headers.isChunked = false := by
  rw [isChunked, getTransferEncoding, getAll, h]
  rfl

/-- The length given by the first value of its key. -/
theorem getContentLength_eq {headers : Headers} {n : ℕ} {vals : List Bytes} (hn : n < 2 ^ 64)
    (h : headers.find? (sv "Content-Length") = some (toString n :: vals)) :
    headers.getContentLength = some n := by
  simp only [getContentLength, get, h, Option.bind_some, List.head?_cons, fromChars_toString hn]
  rfl

end Headers

end Cppnet.Http
