import Mathlib
import YogiModel.Hub.HttpServer

namespace Yogi.Hub.HttpServer

-- `QByteArray::trimmed`

def isSpace (c : Char) : Bool :=
  c = ' ' ∨ '\t' ≤ c ∧ c ≤ '\r'

def trimmed (s : Text) : Text :=
  (s.rdropWhile isSpace).dropWhile isSpace

-- A `QByteArray` that becomes a `QString` ends before its first zero.
def toQString (bytes : Text) : Text :=
  bytes.takeWhile (· ≠ '\x00')

def number (digits : Text) : Option Nat :=
  if digits ≠ [] ∧ digits.all Char.isDigit then
    some (digits.foldl (fun n c => 10 * n + (c.toNat - '0'.toNat)) 0)
  else
    none

def integer : Text → Option Int
  | '-' :: s => (number s).map fun n => -n
  | '+' :: s => (number s).map fun n => n
  | s        => (number s).map fun n => n

-- `QString::toInt`: zero if there is no number of the type.
def toInt (s : Text) : Int :=
  match integer (trimmed s) with
  | some n => if -2 ^ 31 ≤ n ∧ n < 2 ^ 31 then n else 0
  | none   => 0

-- `canReadLine` and `readLine` with what is left.
def readLine : Text → Option (Text × Text)
  | []     => none
  | c :: s => if c = '\n' then some ([c], s) else (readLine s).map fun r => (c :: r.1, r.2)

def toLower (s : Text) : Text :=
  s.map Char.toLower

-- `left(pos)` and `mid(pos + 2)`; `pos` is -1 without a colon.
def headerOf (line : Text) : Text × Text :=
  match line.idxOf? ':' with
  | some pos => (toQString (toLower (line.take pos)), toQString (line.drop (pos + 2)))
  | none     => ([], toQString (line.drop 1))

def insert (header : List (Text × Text)) (h : Text × Text) : List (Text × Text) :=
  h :: header.filter fun h' => h'.1 ≠ h.1

namespace Request

def value? (request : Request) (name : Text) : Option Text :=
  (request.header.find? fun h => h.1 = name).map Prod.snd

def setHeader (request : Request) (h : Text × Text) : Request :=
  { request with header := insert request.header h }

def setContentLength (request : Request) : Request :=
  { request with
    contentLength := toInt ((request.value? "content-length".toList).getD ['0'])
    receiveState  := .content }

end Request

theorem length_readLine {s line rest : Text} (h : readLine s = some (line, rest)) : rest.length < s.length := by
  induction s generalizing line
  case nil         => cases h
  case cons c s ih =>
    simp only [readLine] at h
    split at h
    case isTrue  =>
      cases h
      simp
    case isFalse =>
      obtain ⟨⟨l, r⟩, hr, he⟩ := Option.map_eq_some_iff.mp h
      cases he
      exact (ih hr).trans (by simp)

-- The loop of `handle_receive_state_header`.
def receiveHeader (request : Request) (buffer : Text) : Request × Text :=
  match _h : readLine buffer with
  | none              => (request, buffer)
  | some (line, rest) =>
    if trimmed line = [] then (request.setContentLength, rest)
    else receiveHeader (request.setHeader (headerOf line)) rest
termination_by buffer.length
decreasing_by exact length_readLine _h

theorem length_drop_read {data buffer : Text} (h : data ≠ []) (hb : data.length ≤ buffer.length) :
    (buffer.drop data.length).length < buffer.length := by
  have := List.length_pos_iff.mpr h
  simp
  omega

-- The loop of `handle_receive_state_content`; nothing is read if the number of bytes is negative.
def receiveContent (request : Request) (buffer : Text) : Request × Text :=
  let missing := request.contentLength - request.content.length
  let data := buffer.take missing.toNat
  if _h : missing = 0 ∨ data = [] then (request, buffer)
  else receiveContent { request with content := request.content ++ data } (buffer.drop data.length)
termination_by buffer.length
decreasing_by exact length_drop_read (not_or.mp _h).right (List.length_take_le' _ _)

-- A socket with the request that is received and those that have been handled.
structure Client where
  request : Request := {}
  buffer : Text := []
  closed : Bool := false
  handled : List Request := []

namespace Client

def handleReceiveStateRequestLine (client : Client) : Client :=
  match readLine client.buffer with
  | none              => client
  | some (line, rest) =>
    match parseRequestLine (toQString line) with
    | none             => { client with closed := true, buffer := [] }
    | some (type, uri) =>
      { client with
        buffer  := rest
        request := { client.request with type := type, uri := uri, receiveState := .header } }

def handleReceiveStateHeader (client : Client) : Client :=
  let (request, buffer) := receiveHeader client.request client.buffer
  { client with request := request, buffer := buffer }

def handleReceiveStateContent (client : Client) : Client :=
  let (request, buffer) := receiveContent client.request client.buffer
  let complete := (request.content.length : Int) = request.contentLength
  { client with
    request := if complete then { request with receiveState := .done } else request
    buffer  := buffer }

-- The request is passed to a service and reset.
def handleReceiveStateDone (client : Client) : Client :=
  { client with handled := client.handled ++ [client.request], request := {} }

def when (state : ReceiveState) (handle : Client → Client) (client : Client) : Client :=
  if client.request.receiveState = state then handle client else client

def onReadyRead (client : Client) : Client :=
  when .done handleReceiveStateDone <|
  when .content handleReceiveStateContent <|
  when .header handleReceiveStateHeader <|
  when .requestLine handleReceiveStateRequestLine client

-- A piece of the stream and the event that follows it; a closed socket does not receive anything.
def receive (client : Client) (piece : Text) : Client :=
  if client.closed then client else { client with buffer := client.buffer ++ piece }.onReadyRead

def run (pieces : List Text) : Client :=
  pieces.foldl receive {}

end Client

-- What a request and the bytes of the socket's buffer lead to before the request is handled.
inductive Outcome
  | waits (request : Request) (buffer : Text)
  | completes (request : Request) (buffer : Text)
  | closes

def advanceContent (request : Request) (buffer : Text) : Outcome :=
  let (request, buffer) := receiveContent request buffer
  if (request.content.length : Int) = request.contentLength then
    .completes { request with receiveState := .done } buffer
  else
    .waits request buffer

def advanceHeader (request : Request) (buffer : Text) : Outcome :=
  let (request, buffer) := receiveHeader request buffer
  if request.receiveState = .content then advanceContent request buffer else .waits request buffer

def advanceRequestLine (request : Request) (buffer : Text) : Outcome :=
  match readLine buffer with
  | none              => .waits request buffer
  | some (line, rest) =>
    match parseRequestLine (toQString line) with
    | none             => .closes
    | some (type, uri) => advanceHeader { request with type := type, uri := uri, receiveState := .header } rest

def advance (request : Request) (buffer : Text) : Outcome :=
  match request.receiveState with
  | .requestLine => advanceRequestLine request buffer
  | .header      => advanceHeader request buffer
  | .content     => advanceContent request buffer
  | .done        => .completes request buffer

def Outcome.next (client : Client) : Outcome → Client
  | waits request buffer     => { client with request := request, buffer := buffer }
  | completes request buffer =>
    { client with request := {}, buffer := buffer, handled := client.handled ++ [request] }
  | closes                   => { client with closed := true, buffer := [] }

def Outcome.buffer : Outcome → Text
  | waits _ buffer     => buffer
  | completes _ buffer => buffer
  | closes             => []

-- With more bytes in the buffer.
def Outcome.resume (more : Text) : Outcome → Outcome
  | waits request buffer     => advance request (buffer ++ more)
  | completes request buffer => .completes request (buffer ++ more)
  | closes                   => .closes

section

variable {request : Request} {client : Client} {s line rest more buffer : Text}

theorem readLine_append (h : readLine s = some (line, rest)) : readLine (s ++ more) = some (line, rest ++ more) := by
  induction s generalizing line
  case nil         => cases h
  case cons c s ih =>
    simp only [readLine, List.cons_append] at h ⊢
    split at h
    case isTrue hc  =>
      cases h
      simp [hc]
    case isFalse hc =>
      obtain ⟨⟨l, r⟩, hr, he⟩ := Option.map_eq_some_iff.mp h
      cases he
      simp [hc, ih hr]

theorem readLine_line (h : '\n' ∉ line) : readLine (line ++ '\n' :: rest) = some (line ++ ['\n'], rest) := by
  induction line
  case nil            => rfl
  case cons c line ih =>
    rw [List.mem_cons, not_or] at h
    simp [readLine, Ne.symm h.left, ih h.right]

theorem receiveHeader_of_none (h : readLine buffer = none) : receiveHeader request buffer = (request, buffer) := by
  rw [receiveHeader]
  split
  case h_1     => rfl
  case h_2 heq => simp [h] at heq

theorem receiveHeader_of_some (h : readLine buffer = some (line, rest)) : receiveHeader request buffer =
    if trimmed line = [] then (request.setContentLength, rest)
    else receiveHeader (request.setHeader (headerOf line)) rest := by
  rw [receiveHeader]
  split
  case h_1 heq => simp [h] at heq
  case h_2 heq =>
    rw [h] at heq
    cases heq
    rfl

theorem receiveContent_of_stop
    (h : request.contentLength - request.content.length = 0 ∨
      buffer.take (request.contentLength - request.content.length).toNat = []) :
    receiveContent request buffer = (request, buffer) := by
  rw [receiveContent]
  exact dif_pos h

theorem setContent_nil : { request with content := request.content ++ [] } = request := by
  simp

-- The loop ends with all that is missing or with the whole buffer.
theorem receiveContent_eq {n : Nat} (h : (request.contentLength - request.content.length).toNat = n) :
    receiveContent request buffer = ({ request with content := request.content ++ buffer.take n }, buffer.drop n) := by
  by_cases hs : request.contentLength - request.content.length = 0 ∨ buffer.take n = []
  case pos =>
    rw [receiveContent_of_stop (h ▸ hs)]
    have hn : n = 0 ∨ buffer = [] := by
      cases hs
      case inl hs => exact .inl (by omega)
      case inr hs => simpa using hs
    obtain rfl | rfl := hn
    case inl => simp
    case inr => simp
  case neg =>
    have hz : n ≠ 0 := by
      rintro rfl
      exact hs (.inr rfl)
    have hstop : request.contentLength - (request.content ++ buffer.take n).length = 0 ∨
        (buffer.drop (buffer.take n).length).take
          (request.contentLength - (request.content ++ buffer.take n).length).toNat = [] := by
      simp only [List.length_append, List.length_take]
      by_cases hl : n ≤ buffer.length
      case pos => exact .inl (by omega)
      case neg => exact .inr (by simp; omega)
    have hdrop : buffer.drop (buffer.take n).length = buffer.drop n := by
      rw [List.length_take]
      by_cases hl : n ≤ buffer.length
      case pos => rw [Nat.min_eq_left hl]
      case neg => rw [Nat.min_eq_right (by omega), List.drop_length, List.drop_of_length_le (by omega)]
    rw [receiveContent]
    simp only [h, hs, dite_false]
    rw [receiveContent_of_stop hstop, hdrop]

theorem advance_of_content (hs : request.receiveState = .content) :
    advance request buffer = advanceContent request buffer := by
  simp [advance, hs]

theorem advanceContent_append (hs : request.receiveState = .content) :
    advanceContent request (buffer ++ more) = (advanceContent request buffer).resume more := by
  generalize hn : (request.contentLength - request.content.length).toNat = n
  simp only [advanceContent, receiveContent_eq hn]
  by_cases hl : n ≤ buffer.length
  case pos =>
    rw [List.take_append_of_le_length hl, List.drop_append_of_le_length hl]
    split
    case isTrue     => rfl
    case isFalse hc =>
      have hz : n = 0 := by
        simp only [List.length_append, List.length_take, Nat.min_eq_left hl] at hc
        omega
      subst hz
      rw [List.take_zero, List.append_nil] at hc
      rw [List.take_zero, List.drop_zero, setContent_nil]
      simp only [Outcome.resume, advance_of_content hs, advanceContent, receiveContent_eq hn, List.take_zero,
        setContent_nil, List.drop_zero, if_neg hc]
  case neg =>
    have hlen : ((request.content ++ buffer.take n).length : Int) ≠ request.contentLength := by
      simp only [List.length_append, List.length_take]
      omega
    have hrest : (request.contentLength - (request.content ++ buffer).length).toNat = n - buffer.length := by
      simp only [List.length_append]
      omega
    rw [if_neg hlen, List.take_append, List.drop_append, List.take_of_length_le (by omega),
      List.drop_of_length_le (by omega)]
    have hs' : { request with content := request.content ++ buffer }.receiveState = .content := hs
    rw [Outcome.resume, advance_of_content hs', advanceContent, receiveContent_eq hrest]
    simp

theorem receiveState_receiveHeader (h : request.receiveState = .header) :
    (receiveHeader request buffer).fst.receiveState = .header ∨ (receiveHeader request buffer).fst.receiveState = .content := by
  induction request, buffer using receiveHeader.induct
  case case1 hr =>
    rw [receiveHeader_of_none hr]
    exact .inl h
  case case2 hr ht =>
    rw [receiveHeader_of_some hr, if_pos ht]
    exact .inr rfl
  case case3 hr ht ih =>
    rw [receiveHeader_of_some hr, if_neg ht]
    exact ih h

theorem advanceHeader_append (hs : request.receiveState = .header) :
    advanceHeader request (buffer ++ more) = (advanceHeader request buffer).resume more := by
  induction request, buffer using receiveHeader.induct
  case case1 request buffer hr =>
    simp [advanceHeader, receiveHeader_of_none hr, hs, Outcome.resume, advance]
  case case2 request buffer line rest hr ht =>
    simp only [advanceHeader, receiveHeader_of_some hr, receiveHeader_of_some (readLine_append hr), if_pos ht]
    exact advanceContent_append rfl
  case case3 request buffer line rest hr ht ih =>
    simp only [advanceHeader, receiveHeader_of_some hr, receiveHeader_of_some (readLine_append hr), if_neg ht]
    exact ih hs

theorem advance_append : advance request (buffer ++ more) = (advance request buffer).resume more := by
  cases hs : request.receiveState
  case done        => simp [advance, hs, Outcome.resume]
  case content     => simpa [advance, hs] using advanceContent_append hs
  case header      => simpa [advance, hs] using advanceHeader_append hs
  case requestLine =>
    simp only [advance, hs, advanceRequestLine]
    cases hr : readLine buffer
    case none   => simp [Outcome.resume, advance, hs, advanceRequestLine]
    case some r =>
      obtain ⟨line, rest⟩ := r
      simp only [readLine_append hr]
      cases parseRequestLine (toQString line)
      case none   => rfl
      case some q => exact advanceHeader_append rfl

-- The buffer does not grow.

theorem length_advanceContent_le : (advanceContent request buffer).buffer.length ≤ buffer.length := by
  simp only [advanceContent, receiveContent_eq rfl]
  split <;> simp [Outcome.buffer]

theorem length_advanceHeader_le : (advanceHeader request buffer).buffer.length ≤ buffer.length := by
  induction request, buffer using receiveHeader.induct
  case case1 request buffer hr =>
    simp only [advanceHeader, receiveHeader_of_none hr]
    split
    case isTrue  => exact length_advanceContent_le
    case isFalse => exact Nat.le_refl _
  case case2 request buffer line rest hr ht =>
    simp only [advanceHeader, receiveHeader_of_some hr, if_pos ht]
    exact length_advanceContent_le.trans (length_readLine hr).le
  case case3 request buffer line rest hr ht ih =>
    simp only [advanceHeader, receiveHeader_of_some hr, if_neg ht]
    exact ih.trans (length_readLine hr).le

theorem length_advance_le : (advance request buffer).buffer.length ≤ buffer.length := by
  cases hs : request.receiveState
  case done        => simp [advance, hs, Outcome.buffer]
  case content     => simpa [advance, hs] using length_advanceContent_le
  case header      => simpa [advance, hs] using length_advanceHeader_le
  case requestLine =>
    simp only [advance, hs, advanceRequestLine]
    cases hr : readLine buffer
    case none   => exact Nat.le_refl _
    case some r =>
      simp only
      split
      case h_1 => exact Nat.zero_le _
      case h_2 => exact length_advanceHeader_le.trans (length_readLine hr).le

-- An event handles one request at most.

theorem content_step (hs : client.request.receiveState = .content) :
    Client.when .done Client.handleReceiveStateDone (Client.when .content Client.handleReceiveStateContent client) =
      (advanceContent client.request client.buffer).next client := by
  simp only [Client.when, hs, if_true, Client.handleReceiveStateContent, advanceContent]
  generalize hr : receiveContent client.request client.buffer = r
  have hstate : r.fst.receiveState = .content := by
    rw [← hr, receiveContent_eq rfl]
    exact hs
  by_cases hc : (r.fst.content.length : Int) = r.fst.contentLength
  case pos => simp [hc, Outcome.next, Client.handleReceiveStateDone]
  case neg => simp [hc, hstate, Outcome.next]

theorem next_advanceContent {request' : Request} {buffer' : Text} :
    (advanceContent request buffer).next { client with request := request', buffer := buffer' } =
      (advanceContent request buffer).next client := by
  simp only [advanceContent]
  split <;> rfl

theorem header_step (hs : client.request.receiveState = .header) :
    Client.when .done Client.handleReceiveStateDone (Client.when .content Client.handleReceiveStateContent
      (Client.when .header Client.handleReceiveStateHeader client)) =
      (advanceHeader client.request client.buffer).next client := by
  have hstate := @receiveState_receiveHeader _ client.buffer hs
  have hh : Client.when .header Client.handleReceiveStateHeader client = { client with
      request := (receiveHeader client.request client.buffer).fst
      buffer  := (receiveHeader client.request client.buffer).snd } := by
    simp [Client.when, hs, Client.handleReceiveStateHeader]
  rw [hh]
  simp only [advanceHeader]
  generalize receiveHeader client.request client.buffer = r at hstate
  cases hstate
  case inl hstate => simp [Client.when, hstate, Outcome.next]
  case inr hstate =>
    rw [content_step hstate, if_pos hstate]
    exact next_advanceContent

theorem next_advanceHeader {request' : Request} {buffer' : Text} :
    (advanceHeader request buffer).next { client with request := request', buffer := buffer' } =
      (advanceHeader request buffer).next client := by
  simp only [advanceHeader]
  split
  case isTrue  => exact next_advanceContent
  case isFalse => rfl

theorem onReadyRead_eq : client.onReadyRead = (advance client.request client.buffer).next client := by
  simp only [Client.onReadyRead]
  cases hs : client.request.receiveState
  case done    => simp [Client.when, advance, hs, Outcome.next, Client.handleReceiveStateDone]
  case content =>
    have h : Client.when .header Client.handleReceiveStateHeader
        (Client.when .requestLine Client.handleReceiveStateRequestLine client) = client := by simp [Client.when, hs]
    rw [h, content_step hs]
    simp [advance, hs]
  case header  =>
    have h : Client.when .requestLine Client.handleReceiveStateRequestLine client = client := by simp [Client.when, hs]
    rw [h, header_step hs]
    simp [advance, hs]
  case requestLine =>
    have h : Client.when .requestLine Client.handleReceiveStateRequestLine client =
      client.handleReceiveStateRequestLine := by simp [Client.when, hs]
    rw [h]
    simp only [Client.handleReceiveStateRequestLine, advance, hs, advanceRequestLine]
    cases readLine client.buffer
    case none   => simp [Client.when, hs, Outcome.next]
    case some r =>
      simp only
      cases parseRequestLine (toQString r.fst)
      case none   => simp [Client.when, hs, Outcome.next]
      case some q =>
        simp only
        rw [header_step rfl]
        exact next_advanceHeader

theorem length_handled_receive_le (piece : Text) : (client.receive piece).handled.length ≤ client.handled.length + 1 := by
  simp only [Client.receive]
  split
  case isTrue  => exact Nat.le_succ _
  case isFalse =>
    rw [onReadyRead_eq]
    cases advance _ _ <;> simp [Outcome.next]

end

end Yogi.Hub.HttpServer
