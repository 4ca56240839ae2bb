import Mathlib
import YogiModel.Hub.HttpReceive

namespace Yogi.Hub.HttpServer

-- A request of the stream; what stands behind the colon of a header line is kept with its blanks.
structure Sent where
  type : RequestType
  path : Text
  query : Option Text
  header : List (Text × Text)
  content : Text

namespace Sent

def method : RequestType → Text
  | .httpGet  => "GET ".toList
  | .httpPost => "POST ".toList

def queryText : Option Text → Text
  | none       => []
  | some query => '?' :: query

def version : Text :=
  ['H', 'T', 'T', 'P', '/', '1', '.', '1', '\r']

def requestLine (r : Sent) : Text :=
  method r.type ++ '/' :: (r.path ++ queryText r.query ++ ' ' :: version)

def headerLine (h : Text × Text) : Text :=
  h.1 ++ ':' :: h.2 ++ ['\r']

def lines (r : Sent) : List Text :=
  r.requestLine :: r.header.map headerLine ++ [['\r']]

def encode (r : Sent) : Text :=
  (r.lines.flatMap fun line => line ++ ['\n']) ++ r.content

-- The names are case-insensitive, and the last line of a name counts.
def lastLine (r : Sent) (name : Text) : Option (Text × Text) :=
  r.header.reverse.find? fun h => toLower h.1 = name

def value? (r : Sent) (name : Text) : Option Text :=
  (r.lastLine name).map fun h => trimmed h.2

structure WellFormed (r : Sent) : Prop where
  path   : ∀ c ∈ r.path, ' ' < c ∧ c ≠ '?'
  query  : ∀ q ∈ r.query, ∀ c ∈ q, ' ' < c
  name   : ∀ h ∈ r.header, h.1 ≠ [] ∧ ∀ c ∈ h.1, ' ' < c ∧ c ≠ ':'
  value  : ∀ h ∈ r.header, ∀ c ∈ h.2, c ≠ '\n' ∧ c ≠ '\x00'
  length : match r.value? "content-length".toList with
    | none   => r.content = []
    | some v => number v = some r.content.length

-- Behind the colon is a blank or nothing.
def Spaced (value : Text) : Prop :=
  ∀ c ∈ value.head?, isSpace c = true

-- What `HttpServer` can receive.
structure Plain (r : Sent) : Prop where
  query  : ∀ q ∈ r.query, '?' ∉ q
  spaced : ∀ name, ∀ h ∈ r.lastLine name, Spaced h.2
  short  : r.content.length < 2 ^ 31

end Sent

-- The request that is handled is the one that was sent; the blanks around a value do not matter.
structure Matches (request : Request) (r : Sent) : Prop where
  type    : request.type = r.type
  uri     : request.uri = '/' :: r.path
  header  : ∀ name, (request.value? name).map trimmed = r.value? name
  content : request.content = r.content

section

variable {s t w : Text} {c : Char} {p : Text → Bool} {r : Sent} {request : Request}

-- Blanks around a text

theorem rdropWhile_cons (hc : isSpace c = false) : (c :: s).rdropWhile isSpace = c :: s.rdropWhile isSpace := by
  simp only [List.rdropWhile, List.reverse_cons, List.dropWhile_append]
  split
  case isTrue h =>
    have : s.reverse.dropWhile isSpace = [] := List.isEmpty_iff.mp h
    simp [this, hc]
  case isFalse  => simp

theorem trimmed_cons_of_not (hc : isSpace c = false) : trimmed (c :: s) = c :: s.rdropWhile isSpace := by
  rw [trimmed, rdropWhile_cons hc, List.dropWhile_cons_of_neg (by simp [hc])]

theorem trimmed_cons (hc : isSpace c = true) : trimmed (c :: s) = trimmed s := by
  simp only [trimmed, List.rdropWhile, List.reverse_cons, List.dropWhile_append]
  split
  case isTrue h =>
    have : s.reverse.dropWhile isSpace = [] := List.isEmpty_iff.mp h
    simp [this, hc]
  case isFalse  => simp [hc]

theorem trimmed_append (hc : isSpace c = true) : trimmed (s ++ [c]) = trimmed s := by
  rw [trimmed, List.rdropWhile_concat_pos _ _ _ hc, trimmed]

theorem length_trimmed_le : (trimmed s).length ≤ (s.rdropWhile isSpace).length :=
  (List.dropWhile_suffix _).length_le

-- The first character is lost without a difference if it is a blank.
theorem trimmed_tail_iff : trimmed (s ++ ['\r', '\n']).tail = trimmed s ↔ Sent.Spaced s := by
  have hend : ∀ t, trimmed (t ++ ['\r', '\n']) = trimmed t := by
    intro t
    rw [show t ++ ['\r', '\n'] = t ++ ['\r'] ++ ['\n'] by simp, trimmed_append rfl, trimmed_append rfl]
  cases s
  case nil      =>
    have h : trimmed ['\n'] = trimmed [] := by decide
    simp [Sent.Spaced, h]
  case cons c s =>
    rw [List.cons_append, List.tail_cons, hend]
    cases hc : isSpace c
    case true  => simp [Sent.Spaced, trimmed_cons hc, hc]
    case false =>
      have hlt : trimmed s ≠ trimmed (c :: s) := by
        intro h
        have := congrArg List.length h
        have := length_trimmed_le (s := s)
        rw [trimmed_cons_of_not hc] at *
        simp only [List.length_cons] at *
        omega
      simp [Sent.Spaced, hc, hlt]

-- The request line

theorem greedy_eq_none (h : ∀ t, t <:+ s → p t = false) : greedy p s = none := by
  induction s
  case nil         => simp [greedy, h [] List.suffix_rfl]
  case cons c s ih =>
    simp [greedy, ih fun t ht => h t (ht.trans (List.suffix_cons c s)), h _ List.suffix_rfl]

theorem greedy_append (hc : p (c :: t) = true) (h : ∀ u, u <:+ t → p u = false) : greedy p (s ++ c :: t) = some s := by
  induction s
  case nil         => simp [greedy, greedy_eq_none h, hc]
  case cons d s ih => simp [greedy, ih]

theorem isVersion_eq_false (h : ' ' ∉ s) : isVersion s = false := by
  simp only [isVersion]
  split
  case h_1 => exact absurd List.mem_cons_self h
  case h_2 => rfl

theorem isQuery_eq_false (h : '?' ∉ s) : isQuery s = false := by
  simp only [isQuery]
  split
  case h_1 => exact absurd List.mem_cons_self h
  case h_2 => rfl

def versionEnd : Text :=
  Sent.version ++ ['\n']

-- The URI ends before the last question mark.
theorem captureUri_query (ht : '?' ∉ t) : captureUri ('/' :: (s ++ '?' :: (t ++ ' ' :: versionEnd))) = some ('/' :: s) := by
  have hq : isQuery ('?' :: (t ++ ' ' :: versionEnd)) = true := by
    simp only [isQuery, List.any_eq_true, List.mem_tails]
    exact ⟨' ' :: versionEnd, List.suffix_append _ _, rfl⟩
  have hn : '?' ∉ t ++ ' ' :: versionEnd := by
    rw [List.mem_append, not_or]
    exact ⟨ht, by decide⟩
  have hg := greedy_append (s := s) hq fun u hu => isQuery_eq_false fun hc => hn (hu.subset hc)
  simp [captureUri, hg]

theorem captureUri_path (hs : '?' ∉ s) : captureUri ('/' :: (s ++ ' ' :: versionEnd)) = some ('/' :: s) := by
  have hn : '?' ∉ s ++ ' ' :: versionEnd := by
    rw [List.mem_append, not_or]
    exact ⟨hs, by decide⟩
  have hq := greedy_eq_none fun u hu => isQuery_eq_false fun hc => hn (List.IsSuffix.subset hu hc)
  have hsp : ' ' ∉ versionEnd := by decide
  have hg := greedy_append (s := s) (show isVersion (' ' :: versionEnd) = true from rfl)
    fun u hu => isVersion_eq_false fun hc => hsp (hu.subset hc)
  simp [captureUri, hq, hg]

theorem captureUri_eq {path : Text} {query : Option Text} (hp : '?' ∉ path) :
    ∃ uri, captureUri ('/' :: (path ++ Sent.queryText query ++ ' ' :: versionEnd)) = some uri ∧
      (uri = '/' :: path ↔ ∀ q ∈ query, '?' ∉ q) := by
  cases query
  case none   =>
    refine ⟨_, ?_, iff_of_true rfl (by simp)⟩
    simpa [Sent.queryText] using captureUri_path hp
  case some q =>
    by_cases hq : '?' ∈ q
    case neg =>
      refine ⟨_, ?_, iff_of_true rfl (by simpa using hq)⟩
      simpa [Sent.queryText] using captureUri_query (s := path) hq
    case pos =>
      obtain ⟨a, b, rfl, hb⟩ := exists_last hq
      refine ⟨'/' :: (path ++ '?' :: a), ?_, iff_of_false ?_ (by simp)⟩
      case refine_1 => simpa [Sent.queryText] using captureUri_query (s := path ++ '?' :: a) hb
      case refine_2 =>
        intro h
        have := congrArg List.length h
        simp at this

theorem toQString_eq (h : '\x00' ∉ s) : toQString s = s :=
  List.takeWhile_eq_self_iff.mpr fun c hc => by
    have : c ≠ '\x00' := fun he => h (he ▸ hc)
    simpa using this

namespace Sent

theorem WellFormed.target (h : r.WellFormed) : ∀ c ∈ r.path ++ queryText r.query, ' ' < c := by
  intro c hc
  cases List.mem_append.mp hc
  case inl hc => exact (h.path c hc).left
  case inr hc =>
    cases hq : r.query
    case none   => simp [hq, queryText] at hc
    case some q =>
      simp only [hq, queryText, List.mem_cons] at hc
      cases hc
      case inl hc => exact hc ▸ by decide
      case inr hc => exact h.query q hq c hc

theorem ne_of_visible (h : ' ' < c) : c ≠ '\n' ∧ c ≠ '\x00' := by
  constructor
  case left =>
    rintro rfl
    exact absurd h (by decide)
  case right =>
    rintro rfl
    exact absurd h (by decide)

theorem isSpace_of_visible (h : ' ' < c) : isSpace c = false := by
  have hne : c ≠ ' ' := h.ne'
  have hlt : ¬c ≤ '\r' := fun hc => absurd (h.trans_le hc) (by decide)
  simp [isSpace, hne, hlt]

theorem WellFormed.requestLine (h : r.WellFormed) : ∀ c ∈ r.requestLine, c ≠ '\n' ∧ c ≠ '\x00' := by
  have hm : ∀ type, ∀ c ∈ method type, c ≠ '\n' ∧ c ≠ '\x00' := by
    intro type
    cases type <;> simp [method]
  have hv : ∀ c ∈ ' ' :: version, c ≠ '\n' ∧ c ≠ '\x00' := by simp [version]
  intro c hc
  cases List.mem_append.mp hc
  case inl hc => exact hm _ c hc
  case inr hc =>
    cases List.mem_cons.mp hc
    case inl hc => exact hc ▸ by decide
    case inr hc =>
      cases List.mem_append.mp hc
      case inl hc => exact ne_of_visible (h.target c hc)
      case inr hc => exact hv c hc

theorem WellFormed.parseRequestLine (h : r.WellFormed) :
    ∃ uri, HttpServer.parseRequestLine (toQString (r.requestLine ++ ['\n'])) = some (r.type, uri) ∧
      (uri = '/' :: r.path ↔ ∀ q ∈ r.query, '?' ∉ q) := by
  obtain ⟨uri, hu, hiff⟩ := @captureUri_eq _ r.query fun hp => (h.path _ hp).right rfl
  refine ⟨uri, ?_, hiff⟩
  have hl : r.requestLine ++ ['\n'] =
      method r.type ++ '/' :: (r.path ++ queryText r.query ++ ' ' :: versionEnd) := by
    simp only [Sent.requestLine, versionEnd, List.append_assoc, List.cons_append]
  have hn : '\x00' ∉ r.requestLine ++ ['\n'] := by
    rw [List.mem_append, not_or]
    exact ⟨fun hc => (h.requestLine _ hc).right rfl, by decide⟩
  rw [List.append_assoc] at hu
  rw [toQString_eq hn, hl]
  cases r.type
  case httpGet  => simp [HttpServer.parseRequestLine, method, hu]
  case httpPost => simp [HttpServer.parseRequestLine, method, hu]

-- What is kept of a header line
def entryOf (h : Text × Text) : Text × Text :=
  (toLower h.1, (h.2 ++ ['\r', '\n']).tail)

theorem toLower_ne (h : c ≠ '\x00') : c.toLower ≠ '\x00' := by
  rw [Char.toLower]
  split
  case isTrue hr =>
    intro he
    have hv : c.val + ('a'.val - 'A'.val) = 0 := congrArg Char.val he
    have hz : c.val ≤ 90 := hr.right
    have ha : 65 ≤ c.val := hr.left
    have hn := congrArg UInt32.toNat hv
    rw [UInt32.toNat_add] at hn
    rw [UInt32.le_iff_toNat_le] at hz ha
    simp at hn hz ha
    omega
  case isFalse => exact h

theorem idxOf?_append (h : c ∉ s) : (s ++ c :: t).idxOf? c = some s.length := by
  induction s
  case nil         => simp [List.idxOf?_cons]
  case cons d s ih =>
    rw [List.mem_cons, not_or] at h
    simp [List.idxOf?_cons, Ne.symm h.left, ih h.right]

theorem WellFormed.headerOf (h : r.WellFormed) {l : Text × Text} (hl : l ∈ r.header) :
    HttpServer.headerOf (headerLine l ++ ['\n']) = entryOf l := by
  have hn := (h.name l hl).right
  have he : headerLine l ++ ['\n'] = l.1 ++ ':' :: (l.2 ++ ['\r', '\n']) := by simp [headerLine]
  have hlow : '\x00' ∉ toLower l.1 := by
    intro hc
    obtain ⟨c, hc, hz⟩ := List.mem_map.mp hc
    exact toLower_ne (ne_of_visible (hn c hc).left).right hz
  have hval : '\x00' ∉ (l.2 ++ ['\r', '\n']).tail := by
    intro hc
    cases List.mem_append.mp (List.mem_of_mem_tail hc)
    case inl hc => exact (h.value l hl _ hc).right rfl
    case inr hc => exact absurd hc (by decide)
  have hd : (l.1 ++ ':' :: (l.2 ++ ['\r', '\n'])).drop (l.1.length + 2) = (l.2 ++ ['\r', '\n']).tail := by
    rw [List.drop_append]
    simp
  rw [he, HttpServer.headerOf, idxOf?_append fun hc => (hn _ hc).right rfl]
  simp only [List.take_left', hd, toQString_eq hlow, toQString_eq hval, entryOf]

theorem WellFormed.trimmed_headerLine (h : r.WellFormed) {l : Text × Text} (hl : l ∈ r.header) :
    trimmed (headerLine l ++ ['\n']) ≠ [] := by
  obtain ⟨hne, hn⟩ := h.name l hl
  obtain ⟨c, cs, hc⟩ := List.exists_cons_of_ne_nil hne
  rw [headerLine, hc, List.cons_append, List.cons_append, List.cons_append,
    trimmed_cons_of_not (isSpace_of_visible (hn c (hc ▸ List.mem_cons_self)).left)]
  exact List.cons_ne_nil _ _

theorem WellFormed.headerLine (h : r.WellFormed) {l : Text × Text} (hl : l ∈ r.header) : '\n' ∉ headerLine l := by
  simp only [Sent.headerLine, List.mem_append, List.mem_cons, not_or]
  refine ⟨⟨fun hc => ?_, by decide, fun hc => ?_⟩, by decide⟩
  case refine_1 => exact (ne_of_visible ((h.name l hl).right _ hc).left).left rfl
  case refine_2 => exact (h.value l hl _ hc).left rfl

theorem foldl_setHeader {ls : List (Text × Text)} :
    ls.foldl Request.setHeader request = { request with header := ls.foldl insert request.header } := by
  induction ls generalizing request
  case nil          => rfl
  case cons l ls ih => exact ih

-- The lines up to the blank one are read.
theorem WellFormed.receiveHeader (h : r.WellFormed) {ls : List (Text × Text)} (hs : ls ⊆ r.header) :
    HttpServer.receiveHeader request (((ls.map Sent.headerLine ++ [['\r']]).flatMap fun l => l ++ ['\n']) ++ t) =
      (((ls.map entryOf).foldl Request.setHeader request).setContentLength, t) := by
  induction ls generalizing request
  case nil          =>
    have hb : trimmed ['\r', '\n'] = [] := by decide
    have hr : readLine ('\r' :: '\n' :: t) = some (['\r', '\n'], t) := rfl
    have he : ((([] : List (Text × Text)).map Sent.headerLine ++ [['\r']]).flatMap fun l => l ++ ['\n']) ++ t =
        '\r' :: '\n' :: t := rfl
    rw [he, receiveHeader_of_some hr, if_pos hb]
    rfl
  case cons l ls ih =>
    have hl : l ∈ r.header := hs List.mem_cons_self
    have hr := @readLine_line _ (((ls.map Sent.headerLine ++ [['\r']]).flatMap fun l => l ++ ['\n']) ++ t)
      (h.headerLine hl)
    have he : (((l :: ls).map Sent.headerLine ++ [['\r']]).flatMap fun l => l ++ ['\n']) ++ t =
        Sent.headerLine l ++ '\n' :: (((ls.map Sent.headerLine ++ [['\r']]).flatMap fun l => l ++ ['\n']) ++ t) := by
      simp
    rw [he, receiveHeader_of_some hr, if_neg (h.trimmed_headerLine hl), h.headerOf hl,
      ih fun l hl => hs (List.mem_cons_of_mem _ hl)]
    rfl

theorem value?_setHeader {l : Text × Text} {name : Text} :
    (request.setHeader l).value? name = if l.1 = name then some l.2 else request.value? name := by
  simp only [Request.value?, Request.setHeader, HttpServer.insert, List.find?_cons]
  by_cases hl : l.1 = name
  case pos => simp [hl]
  case neg =>
    have hf : ∀ l' : Text × Text, (!decide (l'.1 = l.1) && decide (l'.1 = name)) = decide (l'.1 = name) := by
      intro l'
      by_cases hn : l'.1 = name
      case pos => simp [hn, Ne.symm hl]
      case neg => simp [hn]
    simp [hl, List.find?_filter, hf]

-- The value of a name is the one of its last line.
theorem value?_foldl {ls : List (Text × Text)} {name : Text} :
    ((ls.map entryOf).foldl Request.setHeader request).value? name =
      ((ls.reverse.find? fun l => toLower l.1 = name).map fun l => (entryOf l).2).or (request.value? name) := by
  induction ls generalizing request
  case nil          => simp
  case cons l ls ih =>
    rw [List.map_cons, List.foldl_cons, ih, value?_setHeader, List.reverse_cons, List.find?_append]
    cases ls.reverse.find? fun l => toLower l.1 = name
    case some l' => simp
    case none    =>
      by_cases hl : toLower l.1 = name
      case pos => simp [entryOf, hl]
      case neg => simp [entryOf, hl]

-- The request after the blank line
def afterHeader (r : Sent) (uri : Text) : Request :=
  ((r.header.map entryOf).foldl Request.setHeader
    { type := r.type, uri := uri, receiveState := .header }).setContentLength

theorem afterHeader_eq {uri : Text} : r.afterHeader uri =
    { type := r.type, uri := uri, receiveState := .content, header := (r.afterHeader uri).header,
      contentLength := (r.afterHeader uri).contentLength } := by
  simp only [afterHeader, foldl_setHeader]
  rfl

theorem value?_afterHeader {uri name : Text} :
    (r.afterHeader uri).value? name = (r.lastLine name).map fun l => (entryOf l).2 := by
  have h : ((r.header.map entryOf).foldl Request.setHeader
      { type := r.type, uri := uri, receiveState := .header }).value? name = _ := value?_foldl
  rw [show ({ type := r.type, uri := uri, receiveState := .header } : Request).value? name = none from rfl,
    Option.or_none] at h
  exact h

theorem header_iff {uri : Text} : (∀ name, ((r.afterHeader uri).value? name).map trimmed = r.value? name) ↔
    ∀ name, ∀ l ∈ r.lastLine name, Spaced l.2 := by
  refine forall_congr' fun name => ?_
  rw [value?_afterHeader, value?]
  cases r.lastLine name
  case none   => simp
  case some l => simpa [entryOf] using trimmed_tail_iff

theorem contentLength_afterHeader {uri : Text} : (r.afterHeader uri).contentLength =
    toInt (((r.afterHeader uri).value? "content-length".toList).getD ['0']) :=
  rfl

theorem toInt_lt : toInt s < 2 ^ 31 := by
  simp only [toInt]
  split
  case h_1 =>
    split
    case isTrue h => exact h.right
    case isFalse  => decide
  case h_2 => decide

theorem integer_of_number {n : Nat} (h : number s = some n) : integer s = some (n : Int) := by
  simp only [integer]
  split
  case h_1 =>
    simp [number] at h
  case h_2 => simp [number] at h
  case h_3 => simp [h]

theorem toInt_of_number {n : Nat} (h : number (trimmed s) = some n) (hn : n < 2 ^ 31) : toInt s = n := by
  rw [toInt, integer_of_number h]
  have hlt : (n : Int) < 2 ^ 31 := by exact_mod_cast hn
  have hge : (-2 : Int) ^ 31 ≤ n := by omega
  simp only []
  rw [if_pos ⟨by omega, hlt⟩]

theorem WellFormed.contentLength (h : r.WellFormed) (hp : r.Plain) {uri : Text} :
    (r.afterHeader uri).contentLength = r.content.length := by
  have hl := h.length
  have hv : ((r.afterHeader uri).value? "content-length".toList).map trimmed = _ := header_iff.mpr hp.spaced _
  rw [contentLength_afterHeader]
  rw [← hv] at hl
  cases hs : (r.afterHeader uri).value? "content-length".toList
  case none   =>
    simp only [hs, Option.map_none] at hl
    rw [hl]
    decide
  case some v =>
    simp only [hs, Option.map_some] at hl
    exact toInt_of_number hl hp.short

theorem WellFormed.advance_encode (h : r.WellFormed) : ∃ uri, (uri = '/' :: r.path ↔ ∀ q ∈ r.query, '?' ∉ q) ∧
    ∀ more, advance {} (r.encode ++ more) = advanceContent (r.afterHeader uri) (r.content ++ more) := by
  obtain ⟨uri, hu, hiff⟩ := h.parseRequestLine
  refine ⟨uri, hiff, fun more => ?_⟩
  have hn : '\n' ∉ r.requestLine := fun hc => (h.requestLine _ hc).left rfl
  have he : r.encode ++ more = r.requestLine ++ '\n' ::
      (((r.header.map Sent.headerLine ++ [['\r']]).flatMap fun l => l ++ ['\n']) ++ (r.content ++ more)) := by
    simp [encode, lines]
  rw [he]
  simp only [advance, advanceRequestLine, readLine_line hn, hu, advanceHeader]
  rw [h.receiveHeader (List.Subset.refl _)]
  rfl

-- What is handled of a plain request
def received (r : Sent) : Request :=
  { r.afterHeader ('/' :: r.path) with content := r.content, receiveState := .done }

theorem Plain.matches (hp : r.Plain) : Matches r.received r where
  type    := by rw [received, afterHeader_eq]
  uri     := by rw [received, afterHeader_eq]
  header  := header_iff.mpr hp.spaced
  content := rfl

theorem WellFormed.completes (h : r.WellFormed) (hp : r.Plain) (more : Text) :
    advance {} (r.encode ++ more) = .completes r.received more := by
  obtain ⟨uri, hiff, ha⟩ := h.advance_encode
  obtain rfl := hiff.mpr hp.query
  have hc : (r.afterHeader ('/' :: r.path)).content = [] := by rw [afterHeader_eq]
  have hl := @WellFormed.contentLength _ h hp ('/' :: r.path)
  have hn : ((r.afterHeader ('/' :: r.path)).contentLength - (r.afterHeader ('/' :: r.path)).content.length).toNat =
      r.content.length := by simp [hc, hl]
  rw [ha, advanceContent, receiveContent_eq hn]
  simp only [List.take_left', List.drop_left', hc, List.nil_append]
  rw [if_pos hl.symm]
  rfl

theorem WellFormed.ne_closes (h : r.WellFormed) (more : Text) : advance {} (r.encode ++ more) ≠ .closes := by
  obtain ⟨uri, _, ha⟩ := h.advance_encode
  rw [ha, advanceContent]
  simp only
  split <;> exact fun h => by cases h

-- A request that is handled as it was sent is plain.
theorem WellFormed.plain (h : r.WellFormed) {more rest : Text}
    (ha : advance {} (r.encode ++ more) = .completes request rest) (hm : Matches request r) : r.Plain := by
  obtain ⟨uri, hiff, he⟩ := h.advance_encode
  rw [he, advanceContent, receiveContent_eq rfl] at ha
  simp only at ha
  split at ha
  case isFalse   => cases ha
  case isTrue hc =>
    cases ha
    have hu : uri = '/' :: r.path := by
      have := hm.uri
      rw [afterHeader_eq] at this
      exact this
    have hlen : (r.content.length : Int) < 2 ^ 31 := by
      rw [← hm.content, hc]
      exact toInt_lt
    exact {
      query  := hiff.mp hu
      spaced := header_iff.mp hm.header
      short  := by exact_mod_cast hlen
    }

end Sent

-- The state of a client is the one that the bytes since the last request lead to.
structure Stands (client : Client) (pending : Text) : Prop where
  isOpen  : client.closed = false
  length  : client.buffer.length ≤ pending.length
  advance : ∀ more, HttpServer.advance client.request (client.buffer ++ more) = HttpServer.advance {} (pending ++ more)

section

variable {client : Client} {pending piece rest : Text} {pieces : List Text} {todo finished : List Sent}

theorem Stands.fresh {handled : List Request} : Stands { buffer := rest, handled := handled } rest where
  isOpen  := rfl
  length  := Nat.le_refl _
  advance := fun _ => rfl

theorem Stands.receive_eq (h : Stands client pending) : client.receive piece =
    (HttpServer.advance {} (pending ++ piece)).next { client with buffer := client.buffer ++ piece } := by
  rw [Client.receive, if_neg (by simp [h.isOpen]), onReadyRead_eq, h.advance]

theorem Stands.completes (h : Stands client pending)
    (ha : HttpServer.advance {} (pending ++ piece) = .completes request rest) :
    client.receive piece = { buffer := rest, handled := client.handled ++ [request] } := by
  rw [h.receive_eq, ha]
  simp [Outcome.next, h.isOpen]

theorem Stands.waits (h : Stands client pending) {buffer : Text}
    (ha : HttpServer.advance {} (pending ++ piece) = .waits request buffer) :
    Stands (client.receive piece) (pending ++ piece) ∧ (client.receive piece).handled = client.handled := by
  rw [h.receive_eq, ha]
  have hlen : buffer.length ≤ (client.buffer ++ piece).length := by
    have : (HttpServer.advance client.request (client.buffer ++ piece)).buffer.length ≤ _ := length_advance_le
    rw [h.advance, ha] at this
    exact this
  refine ⟨⟨h.isOpen, ?_, fun more => ?_⟩, rfl⟩
  case refine_1 =>
    have := h.length
    simp only [List.length_append] at hlen ⊢
    exact hlen.trans (by omega)
  case refine_2 =>
    calc HttpServer.advance request (buffer ++ more)
      _ = (HttpServer.advance {} (pending ++ piece)).resume more := by rw [ha]; rfl
      _ = HttpServer.advance {} (pending ++ piece ++ more)       := advance_append.symm

-- The events after which a number of bytes of the stream have arrived.
def events (n : Nat) (pieces : List Text) : Nat :=
  (List.range pieces.length).countP fun j => n ≤ (pieces.take (j + 1)).flatten.length

theorem events_cons {n : Nat} :
    events n (piece :: pieces) = (if n ≤ piece.length then 1 else 0) + events (n - piece.length) pieces := by
  simp only [events, List.length_cons, List.range_succ_eq_map, List.countP_cons, List.countP_map]
  rw [Nat.add_comm]
  refine congrArg₂ _ (by simp) (List.countP_congr fun j _ => ?_)
  simp
  omega

theorem events_le {n : Nat} : events n pieces ≤ pieces.length := by
  simpa [events] using List.countP_le_length (l := List.range pieces.length)

theorem events_zero : events 0 pieces = pieces.length := by
  simp [events]

-- How many of the requests of these lengths are handled if every event can handle one.
def served (pending : Nat) : List Nat → List Text → Nat
  | _, []                   => 0
  | [], _ :: _              => 0
  | n :: ns, piece :: pieces =>
    if n ≤ pending + piece.length then served (pending + piece.length - n) ns pieces + 1
    else served (pending + piece.length) (n :: ns) pieces

theorem served_le {ns : List Nat} {n : Nat} : served n ns pieces ≤ ns.length := by
  induction pieces generalizing n ns
  case nil                   => simp [served]
  case cons piece pieces ih =>
    cases ns
    case nil       => simp [served]
    case cons l ns =>
      simp only [served]
      split
      case isTrue  => exact Nat.succ_le_succ ih
      case isFalse => exact ih

theorem served_eq_length_iff {ns : List Nat} {n : Nat} : served n ns pieces = ns.length ↔
    ∀ i < ns.length, ns.length - i ≤ events ((ns.take (i + 1)).sum - n) pieces := by
  induction pieces generalizing n ns
  case nil                   =>
    cases ns
    case nil  => simp [served]
    case cons =>
      simp only [served, events, List.length_nil, List.range_zero, List.countP_nil]
      refine iff_of_false (by simp) fun h => ?_
      exact absurd (h 0 (by simp)) (by simp)
  case cons piece pieces ih =>
    cases ns
    case nil       => simp [served]
    case cons l ns =>
      simp only [served]
      split
      case isFalse hl =>
        rw [ih]
        refine forall_congr' fun i => imp_congr_right fun _ => ?_
        rw [events_cons, if_neg (by simp; omega), Nat.zero_add, Nat.sub_sub]
      case isTrue hl =>
        rw [List.length_cons, Nat.add_right_cancel_iff, ih]
        constructor
        case mp =>
          intro h i hi
          rw [events_cons]
          cases i
          case zero =>
            rw [if_pos (by simp; omega)]
            have hz : (((l :: ns).take (0 + 1)).sum - n - piece.length) = 0 := by simp; omega
            rw [hz, events_zero]
            cases ns
            case nil       => simp
            case cons m ns =>
              have := (h 0 (by simp)).trans events_le
              omega
          case succ i =>
            have := h i (by omega)
            have he : (l :: ns).take (i + 1 + 1) = l :: ns.take (i + 1) := rfl
            rw [he, List.sum_cons, Nat.sub_sub, show l + (ns.take (i + 1)).sum - (n + piece.length) =
              (ns.take (i + 1)).sum - (n + piece.length - l) by omega]
            omega
        case mpr =>
          intro h i hi
          have h₀ := h 0 (by simp)
          have h₁ := h (i + 1) (by simp; omega)
          have he : (l :: ns).take (i + 1 + 1) = l :: ns.take (i + 1) := rfl
          rw [events_cons, he, List.sum_cons, Nat.sub_sub, show l + (ns.take (i + 1)).sum - (n + piece.length) =
            (ns.take (i + 1)).sum - (n + piece.length - l) by omega] at h₁
          rw [events_cons] at h₀
          have hle : events (((l :: ns).take (0 + 1)).sum - n - piece.length) pieces ≤ _ := events_le
          by_cases hz : (ns.take (i + 1)).sum - (n + piece.length - l) = 0
          case pos =>
            rw [hz, events_zero]
            split at h₀ <;> omega
          case neg =>
            rw [if_neg (by omega)] at h₁
            omega

theorem prefix_handled : client.handled <+: (pieces.foldl Client.receive client).handled := by
  induction pieces generalizing client
  case nil              => exact List.prefix_rfl
  case cons piece pieces ih =>
    refine List.IsPrefix.trans ?_ ih
    rw [Client.receive]
    split
    case isTrue  => exact List.prefix_rfl
    case isFalse =>
      rw [onReadyRead_eq]
      cases HttpServer.advance _ _
      case waits     => exact List.prefix_rfl
      case completes => exact List.prefix_append _ _
      case closes    => exact List.prefix_rfl

def encodeAll (todo : List Sent) : Text :=
  todo.flatMap Sent.encode

-- With a part of a plain request nothing is handled.
theorem waits_of_part (hr : r.WellFormed) (hp : r.Plain) (he : r.encode = s ++ t) (ht : t ≠ []) :
    ∃ request buffer, HttpServer.advance {} s = .waits request buffer := by
  have hc := hr.completes hp []
  rw [List.append_nil, he, advance_append] at hc
  cases ha : HttpServer.advance {} s
  case waits q b => exact ⟨q, b, rfl⟩
  case closes    => simp [ha, Outcome.resume] at hc
  case completes q b =>
    rw [ha, Outcome.resume] at hc
    injection hc with _ hb
    exact absurd (List.append_eq_nil_iff.mp hb).right ht

theorem advance_nil : HttpServer.advance {} [] = .waits {} [] :=
  rfl

-- Plain requests are handled as soon as they have arrived and an event is left for them.
theorem handled_of_plain (hw : ∀ r ∈ todo, r.WellFormed) (hp : ∀ r ∈ todo, r.Plain) (hs : Stands client pending)
    (he : pending ++ pieces.flatten = encodeAll todo) :
    (pieces.foldl Client.receive client).handled = client.handled ++
      (todo.take (served pending.length (todo.map fun r => r.encode.length) pieces)).map Sent.received ∧
    (served pending.length (todo.map fun r => r.encode.length) pieces = todo.length →
      (pieces.foldl Client.receive client).buffer = []) := by
  induction pieces generalizing todo pending client
  case nil              =>
    refine ⟨by simp [served], fun hn => ?_⟩
    have ht : todo = [] := List.length_eq_zero_iff.mp (by simpa [served] using hn.symm)
    have hpend : pending = [] := by simpa [ht, encodeAll] using he
    have := hs.length
    rw [hpend] at this
    exact List.length_eq_zero_iff.mp (Nat.le_zero.mp this)
  case cons piece pieces ih =>
    rw [List.flatten_cons, ← List.append_assoc] at he
    cases todo
    case nil       =>
      obtain ⟨hn, hf⟩ := List.append_eq_nil_iff.mp he
      have ha : HttpServer.advance {} (pending ++ piece) = .waits {} [] := by
        rw [hn]
        exact advance_nil
      obtain ⟨hst, hh⟩ := hs.waits ha
      obtain ⟨hih, hb⟩ := @ih _ _ [] (by simp) (by simp) hst he
      simp only [List.foldl_cons, hih, hh, List.take_nil, List.map_nil, List.append_nil, true_and]
      intro _
      refine hb ?_
      cases pieces <;> rfl
    case cons r rs =>
      have hr := hw r List.mem_cons_self
      have hpr := hp r List.mem_cons_self
      have heq : pending ++ piece ++ pieces.flatten = r.encode ++ encodeAll rs := he
      simp only [List.map_cons, served, List.foldl_cons]
      split
      case isTrue hle =>
        obtain ⟨rest, hrest⟩ : r.encode <+: pending ++ piece :=
          List.prefix_of_prefix_length_le ⟨_, rfl⟩ ⟨_, heq⟩ (by simpa using hle)
        have htail : rest ++ pieces.flatten = encodeAll rs := by
          rw [← hrest, List.append_assoc] at heq
          exact List.append_cancel_left heq
        have hlen : rest.length = pending.length + piece.length - r.encode.length := by
          have := congrArg List.length hrest
          simp at this
          omega
        rw [hs.completes (hrest ▸ hr.completes hpr rest)]
        obtain ⟨hih, hb⟩ := ih (fun r h => hw r (List.mem_cons_of_mem _ h)) (fun r h => hp r (List.mem_cons_of_mem _ h))
          (.fresh : Stands { buffer := rest, handled := client.handled ++ [r.received] } rest) htail
        rw [← hlen]
        exact ⟨by simp [hih], fun hn => hb (by simpa using hn)⟩
      case isFalse hle =>
        obtain ⟨more, hmore⟩ : pending ++ piece <+: r.encode :=
          List.prefix_of_prefix_length_le ⟨_, heq⟩ ⟨_, rfl⟩ (by simp; omega)
        have hne : more ≠ [] := by
          rintro rfl
          have := congrArg List.length hmore
          simp at this
          omega
        obtain ⟨q, b, ha⟩ := waits_of_part hr hpr hmore.symm hne
        obtain ⟨hst, hh⟩ := hs.waits ha
        obtain ⟨hih, hb⟩ := ih hw hp hst heq
        rw [List.length_append] at hih hb
        exact ⟨by rw [hih, hh]; rfl, hb⟩

-- If all requests are handled as they were sent, they are plain.
theorem plain_of_handled (hw : ∀ r ∈ todo, r.WellFormed) (hs : Stands client pending)
    (he : pending ++ pieces.flatten = encodeAll todo) (hc : client.handled.length = finished.length)
    (hm : List.Forall₂ Matches (pieces.foldl Client.receive client).handled (finished ++ todo)) :
    ∀ r ∈ todo, r.Plain := by
  induction pieces generalizing todo pending client finished
  case nil              =>
    have := hm.length_eq
    simp [hc] at this
    simp [this]
  case cons piece pieces ih =>
    rw [List.flatten_cons, ← List.append_assoc] at he
    cases todo
    case nil       => simp
    case cons r rs =>
      have hr := hw r List.mem_cons_self
      have heq : pending ++ piece ++ pieces.flatten = r.encode ++ encodeAll rs := he
      have hall : HttpServer.advance {} (r.encode ++ encodeAll rs) =
          (HttpServer.advance {} (pending ++ piece)).resume pieces.flatten := by
        rw [← heq, advance_append]
      cases ha : HttpServer.advance {} (pending ++ piece)
      case closes    => exact absurd (ha ▸ hall) (hr.ne_closes _)
      case waits q b =>
        obtain ⟨hst, hh⟩ := hs.waits ha
        exact ih hw hst heq (hh ▸ hc) hm
      case completes q b =>
        rw [ha, Outcome.resume] at hall
        have hrec := hs.completes ha
        rw [List.foldl_cons, hrec] at hm
        have hmq : Matches q r := by
          obtain ⟨more, hmore⟩ := @prefix_handled { buffer := b, handled := client.handled ++ [q] } pieces
          rw [← hmore, List.append_assoc] at hm
          have hd := List.forall₂_drop client.handled.length hm
          rw [List.drop_left, hc, List.drop_left] at hd
          cases hd
          case cons h _ => exact h
        have hpr := hr.plain hall hmq
        rw [hr.completes hpr] at hall
        injection hall with _ hb
        have hst : Stands { buffer := b, handled := client.handled ++ [q] } b := .fresh
        rw [show finished ++ r :: rs = finished ++ [r] ++ rs by simp] at hm
        have := ih (fun r h => hw r (List.mem_cons_of_mem _ h)) hst hb.symm (by simp [hc]) hm
        exact List.forall_mem_cons.mpr ⟨hpr, this⟩

-- The requests are handled in their order as they were sent, and nothing is left.
def Meets (requests : List Sent) (pieces : List Text) : Prop :=
  List.Forall₂ Matches (Client.run pieces).handled requests ∧ (Client.run pieces).buffer = []

end

end

def index : Sent where
  type    := .httpGet
  path    := []
  query   := none
  header  := []
  content := []

theorem wellFormed_index : index.WellFormed where
  path   := fun _ hc => by cases hc
  query  := fun _ hq => by cases hq
  name   := fun _ hh => by cases hh
  value  := fun _ hh => by cases hh
  length := rfl

end Yogi.Hub.HttpServer
