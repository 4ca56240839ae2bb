import Mathlib
import YogiModel.Base.Ptree

namespace Yogi.Hub

inductive RequestType
  | httpGet
  | httpPost
  deriving DecidableEq

namespace HttpServer

inductive ReceiveState
  | requestLine
  | header
  | content
  | done
  deriving DecidableEq

-- The bytes are the characters that they stand for.
structure Request where
  receiveState : ReceiveState := .requestLine
  type : RequestType := .httpGet
  uri : Text := []
  header : List (Text × Text) := []
  contentLength : Int := 0
  content : Text := []
  deriving DecidableEq

-- What ` HTTP/1.1` matches: the point stands for any character.
def isVersion : Text → Bool
  | ' ' :: 'H' :: 'T' :: 'T' :: 'P' :: '/' :: '1' :: _ :: '1' :: _ => true
  | _                                                              => false

-- What `.*` captures if the rest of the expression is greedy, too.
def greedy (p : Text → Bool) : Text → Option Text
  | []     => if p [] then some [] else none
  | c :: s =>
    match greedy p s with
    | some w => some (c :: w)
    | none   => if p (c :: s) then some [] else none

-- `(\?.*) HTTP/1.1`
def isQuery : Text → Bool
  | '?' :: s => s.tails.any isVersion
  | _        => false

-- The capture of `(/.*)(\?.*) HTTP/1.1` or of `(/.*) HTTP/1.1`
def captureUri : Text → Option Text
  | '/' :: s => ((greedy isQuery s).or (greedy isVersion s)).map ('/' :: ·)
  | _        => none

def parseRequestLine (requestLine : Text) : Option (RequestType × Text) :=
  if "GET ".toList.isPrefixOf requestLine then
    (captureUri (requestLine.drop 4)).map (.httpGet, ·)
  else if "POST ".toList.isPrefixOf requestLine then
    (captureUri (requestLine.drop 5)).map (.httpPost, ·)
  else
    none

-- The path with which `try_redirect_to_service` calls the service, if it does so.
def tryRedirectToService (uriRoot uri : Text) : Option Text :=
  let start := if uriRoot = ['/'] then uriRoot else uriRoot ++ ['/']
  if uri ≠ uriRoot ∧ ¬start.isPrefixOf uri then
    none
  else
    let path := uri.drop uriRoot.length
    some (if path.head? = some '/' then path else '/' :: path)

example : parseRequestLine "GET /a?b?c HTTP/1.1\r\n".toList = some (.httpGet, "/a?b".toList) := by decide

theorem exists_last {s : Text} {c : Char} (h : c ∈ s) : ∃ a b, s = a ++ c :: b ∧ c ∉ b := by
  obtain ⟨a, b, hs, ha⟩ := List.eq_append_cons_of_mem (List.mem_reverse.mpr h)
  refine ⟨b.reverse, a.reverse, ?_, by simpa using ha⟩
  rw [← List.reverse_reverse s, hs]
  simp

end HttpServer

end Yogi.Hub
