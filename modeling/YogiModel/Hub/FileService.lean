import Mathlib
import YogiModel.Base.LexicalPath
import YogiModel.Hub.HttpServer

namespace Yogi.Hub

open LexicalPath

-- A file system without symbolic links with the functions of Qt that do not look at it.
structure Files where
  cwd : List Text
  isFile : List Text → Bool
  isDir : List Text → Bool
  cleanPath : Text → Text
  isRoot : Text → Bool

namespace Files

def isFileAt (files : Files) (path : Text) : Bool :=
  path ≠ [] && files.isFile (resolve files.cwd path)

def isDirAt (files : Files) (path : Text) : Bool :=
  path ≠ [] && files.isDir (resolve files.cwd path)

-- The paths below a directory are made with a slash, so the one without a name is the root.
def dirAt (files : Files) (path : Text) : List Text :=
  resolve files.cwd (path ++ ['/'])

end Files

structure FileService where
  files : Files
  routes : List (Text × Text)

namespace FileService

-- A path with the route that has led to it.
structure Found where
  route : Text × Text
  filePath : Text

def lastIndexOf (c : Char) : Text → Option Nat
  | []     => none
  | x :: s =>
    match lastIndexOf c s with
    | some i => some (i + 1)
    | none   => if x = c then some 0 else none

-- `left` with a negative number of characters is the whole text.
def leftOf (path : Text) : Option Nat → Text
  | some n => path.take n
  | none   => path

def indexHtml : Text :=
  '/' :: "index.html".toList

variable (service : FileService)

def isIndex (path : Text) : Bool :=
  service.files.isDirAt path && service.files.isFileAt (path ++ indexHtml)

-- The inner loop; there is no result if it does not end after as many rounds.
def walk (routeBase : Text) : Nat → Text → Option (Option Text)
  | 0, _           => none
  | rounds + 1, path =>
    if path.length < routeBase.length then some none
    else if service.isIndex path then some (some (path ++ indexHtml))
    else if path.length = routeBase.length then some none
    else walk routeBase rounds (leftOf path (lastIndexOf '/' path))

def prefixOf (route : Text) : Text :=
  if service.files.isRoot route then service.files.cleanPath route
  else service.files.cleanPath route ++ ['/']

def matchesRoute (uri : Text) (r : Text × Text) : Bool :=
  (service.prefixOf r.1).isPrefixOf uri

def restOf (uri : Text) (r : Text × Text) : Text :=
  uri.drop (service.prefixOf r.1).length

def filePathOf (uri : Text) (r : Text × Text) : Text :=
  service.files.cleanPath r.2 ++ '/' :: service.restOf uri r

def search (rounds : Nat) (uri : Text) : List (Text × Text) → Option (Option Found)
  | []      => some none
  | r :: rs =>
    if service.matchesRoute uri r then
      if service.files.isFileAt (service.filePathOf uri r) then
        some (some ⟨r, service.filePathOf uri r⟩)
      else if '.' ∉ uri then
        match service.walk (service.files.cleanPath r.2) rounds (service.filePathOf uri r) with
        | none             => none
        | some (some path) => some (some ⟨r, path⟩)
        | some none        => search rounds uri rs
      else
        search rounds uri rs
    else
      search rounds uri rs

-- The last route is taken first.
def sortedRoutes : List (Text × Text) :=
  (service.routes.insertionSort fun r r' => r.1 ≤ r'.1).reverse

def uriToFilePath (rounds : Nat) (uri : Text) : Option (Option Found) :=
  service.search rounds uri service.sortedRoutes

def uriOfPath (path : Text) : Text :=
  if path = ['/'] then indexHtml else path

def asyncHandleRequest (rounds : Nat) (type : RequestType) (path : Text) : Option (Option Found) :=
  if type = .httpGet then service.uriToFilePath rounds (uriOfPath path) else some none

-- What a request line that is accepted and dispatched to the service makes it read.
def read (uriRoot : Text) (rounds : Nat) (requestLine : Text) : Option (Option Found) :=
  match HttpServer.parseRequestLine requestLine with
  | none             => some none
  | some (type, uri) =>
    match HttpServer.tryRedirectToService uriRoot uri with
    | none      => some none
    | some path => service.asyncHandleRequest rounds type path

-- The URI for which a request line makes the service look.
def requestedUri (uriRoot requestLine : Text) : Option Text := do
  let (type, uri) ← HttpServer.parseRequestLine requestLine
  let path ← HttpServer.tryRedirectToService uriRoot uri
  if type = .httpGet then some (uriOfPath path) else none

def Confined (found : Found) : Prop :=
  service.files.dirAt found.route.2 <+: resolve service.files.cwd found.filePath

-- A file is found without walking back.
def hits (uri : Text) (r : Text × Text) : Bool :=
  service.matchesRoute uri r && service.files.isFileAt (service.filePathOf uri r)

-- If a URI with a point hits a file, what follows the prefix does not lead out of the directory.
def StaysInside (uri : Text) : Prop :=
  '.' ∈ uri → ∀ before r after, service.sortedRoutes = before ++ r :: after →
    (∀ r' ∈ before, service.hits uri r' = false) → service.hits uri r = true →
    (Relative.of ((service.restOf uri r).splitOn '/')).StaysIn (service.files.dirAt r.2)

section

variable {service : FileService} {path routeBase uri uriRoot requestLine s t : Text} {r : Text × Text}
  {rs : List (Text × Text)} {c : Char} {rounds m : Nat}

theorem lastIndexOf_eq_none (h : c ∉ s) : lastIndexOf c s = none := by
  induction s
  case nil         => rfl
  case cons x s ih =>
    rw [List.mem_cons, not_or] at h
    simp [lastIndexOf, ih h.right, Ne.symm h.left]

theorem lastIndexOf_append (h : c ∉ t) : lastIndexOf c (s ++ c :: t) = some s.length := by
  induction s
  case nil         => simp [lastIndexOf, lastIndexOf_eq_none h]
  case cons x s ih => simp [lastIndexOf, ih]

-- The paths that the inner loop gets to.
def Below (routeBase path : Text) : Prop :=
  path = routeBase ∨ ∃ p, path = routeBase ++ '/' :: p ∧ '.' ∉ p

theorem Below.left (h : Below routeBase path) (hl : path.length ≠ routeBase.length) :
    Below routeBase (leftOf path (lastIndexOf '/' path)) ∧
      (leftOf path (lastIndexOf '/' path)).length < path.length := by
  obtain rfl | ⟨p, rfl, hp⟩ := h
  case inl => exact absurd rfl hl
  case inr =>
    by_cases hs : '/' ∈ p
    case pos =>
      obtain ⟨a, b, rfl, hb⟩ := HttpServer.exists_last hs
      have he : routeBase ++ '/' :: (a ++ '/' :: b) = (routeBase ++ '/' :: a) ++ '/' :: b := by simp
      rw [he, lastIndexOf_append hb]
      simp only [leftOf, List.take_left']
      refine ⟨.inr ⟨a, rfl, fun ha => hp (List.mem_append_left _ ha)⟩, by simp⟩
    case neg =>
      rw [lastIndexOf_append hs]
      simp only [leftOf, List.take_left']
      exact ⟨.inl rfl, by simp⟩

theorem Below.length_le (h : Below routeBase path) : routeBase.length ≤ path.length := by
  obtain rfl | ⟨p, rfl, _⟩ := h
  case inl => exact Nat.le_refl _
  case inr => simp

-- The loop ends, and it only finds files below the directory.
theorem Below.walk (h : Below routeBase path) (hr : path.length < routeBase.length + rounds) :
    ∃ found, service.walk routeBase rounds path = some found ∧
      ∀ w ∈ found, ∃ p, Below routeBase p ∧ w = p ++ indexHtml := by
  induction rounds generalizing path
  case zero           => exact absurd h.length_le (by omega)
  case succ rounds ih =>
    have hle := h.length_le
    simp only [FileService.walk, not_lt.mpr hle, if_false]
    split
    case isTrue => exact ⟨_, rfl, fun w hw => ⟨path, h, (Option.mem_some_iff.mp hw).symm⟩⟩
    case isFalse =>
      split
      case isTrue     => exact ⟨none, rfl, fun w hw => by cases hw⟩
      case isFalse hl =>
        obtain ⟨hb, hlt⟩ := h.left hl
        exact ih hb (by omega)

theorem walk_mono {x} (h : service.walk routeBase rounds path = some x) (hm : rounds ≤ m) :
    service.walk routeBase m path = some x := by
  induction rounds generalizing path m
  case zero           => cases h
  case succ rounds ih =>
    obtain ⟨m, rfl⟩ : ∃ n, m = n + 1 := ⟨m - 1, by omega⟩
    simp only [walk] at h ⊢
    split at h
    case isTrue hl  => simpa [hl] using h
    case isFalse hl =>
      rw [if_neg hl]
      split at h
      case isTrue hi  => simpa [hi] using h
      case isFalse hi =>
        rw [if_neg hi]
        split at h
        case isTrue he  => simpa [he] using h
        case isFalse he =>
          rw [if_neg he]
          exact ih h (by omega)

def Cleans (files : Files) : Prop :=
  ∀ path, files.dirAt (files.cleanPath path) = files.dirAt path

theorem isParent_index : ∀ name ∈ "index.html".toList.splitOn '/', isParent name = false := by
  intro name hn
  rw [List.splitOn_eq_singleton (by decide), List.mem_singleton] at hn
  subst hn
  rfl

theorem Below.confined (hc : Cleans service.files) (h : Below (service.files.cleanPath r.2) path) :
    service.Confined ⟨r, path ++ indexHtml⟩ := by
  have hd : service.files.dirAt r.2 = resolve service.files.cwd (service.files.cleanPath r.2 ++ ['/']) := (hc r.2).symm
  simp only [Confined, hd]
  obtain rfl | ⟨p, rfl, hp⟩ := h
  case inl => exact prefix_of_no_parent isParent_index
  case inr =>
    have he : service.files.cleanPath r.2 ++ '/' :: p ++ indexHtml =
      service.files.cleanPath r.2 ++ '/' :: (p ++ '/' :: "index.html".toList) := by simp [indexHtml]
    rw [he]
    refine prefix_of_no_parent fun name hn => ?_
    rw [List.splitOn_append_cons_self] at hn
    cases List.mem_append.mp hn
    case inl hn => exact isParent_of_splitOn hp hn
    case inr hn => exact isParent_index name hn

theorem confined_iff (hc : Cleans service.files) : service.Confined ⟨r, service.filePathOf uri r⟩ ↔
    (Relative.of ((service.restOf uri r).splitOn '/')).StaysIn (service.files.dirAt r.2) := by
  have hd : service.files.dirAt r.2 = resolve service.files.cwd (service.files.cleanPath r.2 ++ ['/']) := (hc r.2).symm
  simp only [Confined, hd, filePathOf, prefix_resolve_append_iff]

-- With a point in it a URI leads to the first hit.
theorem search_of_dot (h : '.' ∈ uri) :
    service.search rounds uri rs = some ((rs.find? (service.hits uri)).map fun r => ⟨r, service.filePathOf uri r⟩) := by
  induction rs
  case nil          => rfl
  case cons r rs ih =>
    simp only [search, List.find?_cons, hits]
    cases hm : service.matchesRoute uri r
    case false => simpa using ih
    case true  =>
      cases hf : service.files.isFileAt (service.filePathOf uri r)
      case true  => rfl
      case false => simpa [h] using ih

theorem confined_of_no_dot (hc : Cleans service.files) (h : '.' ∉ uri) :
    service.Confined ⟨r, service.filePathOf uri r⟩ := by
  refine (confined_iff hc).mpr (Relative.staysIn_of_ups (Relative.ups_of fun name hn => ?_))
  exact isParent_of_splitOn (fun hd => h (List.mem_of_mem_drop hd)) hn

-- Without a point in it a URI leads to nothing outside of a directory.
theorem search_of_no_dot (hc : Cleans service.files) (h : '.' ∉ uri) :
    ∃ found, (∀ rounds, uri.length + 1 < rounds → service.search rounds uri rs = some found) ∧
      ∀ f ∈ found, service.Confined f := by
  induction rs
  case nil          => exact ⟨none, fun _ _ => rfl, fun f hf => by cases hf⟩
  case cons r rs ih =>
    obtain ⟨found, hs, hconf⟩ := ih
    simp only [search, h, not_false_eq_true, if_true]
    split
    case isFalse => exact ⟨found, hs, hconf⟩
    case isTrue  =>
      split
      case isTrue => exact ⟨_, fun _ _ => rfl, fun f hf => Option.mem_some_iff.mp hf ▸ confined_of_no_dot hc h⟩
      case isFalse =>
        have hb : Below (service.files.cleanPath r.2) (service.filePathOf uri r) :=
          .inr ⟨_, rfl, fun hd => h (List.mem_of_mem_drop hd)⟩
        have hl : (service.filePathOf uri r).length < (service.files.cleanPath r.2).length + (uri.length + 2) := by
          simp [filePathOf, restOf]
        obtain ⟨w, hw, hbelow⟩ : ∃ found, service.walk _ _ _ = some found ∧ _ := hb.walk hl
        have hall : ∀ rounds, uri.length + 1 < rounds →
            service.walk (service.files.cleanPath r.2) rounds (service.filePathOf uri r) = some w :=
          fun rounds hr => walk_mono hw hr
        cases w
        case none   =>
          refine ⟨found, fun rounds hr => ?_, hconf⟩
          rw [hall rounds hr, hs rounds hr]
        case some w =>
          refine ⟨some ⟨r, w⟩, fun rounds hr => by rw [hall rounds hr], fun f hf => ?_⟩
          obtain ⟨p, hp, rfl⟩ := hbelow w rfl
          exact Option.mem_some_iff.mp hf ▸ hp.confined hc

theorem read_eq : service.read uriRoot rounds requestLine = match requestedUri uriRoot requestLine with
    | none     => some none
    | some uri => service.uriToFilePath rounds uri := by
  simp only [read, requestedUri]
  cases HttpServer.parseRequestLine requestLine
  case none   => rfl
  case some q =>
    obtain ⟨type, uri⟩ := q
    cases h : HttpServer.tryRedirectToService uriRoot uri
    case none      => simp [h]
    case some path =>
      simp only [h, asyncHandleRequest, Option.bind_eq_bind, Option.bind_some]
      cases type <;> rfl

end

-- Every request line is answered, and not from outside of a directory unless a URI with a point climbs out of it.
theorem read_is_confined_iff (service : FileService) (uriRoot requestLine : Text)
    (hc : ∀ path, service.files.dirAt (service.files.cleanPath path) = service.files.dirAt path) :
    ∃ rounds found, (∀ n, rounds ≤ n → service.read uriRoot n requestLine = some found) ∧
      ((∀ f ∈ found, service.Confined f) ↔ ∀ uri ∈ requestedUri uriRoot requestLine, service.StaysInside uri) := by
  simp only [read_eq]
  cases requestedUri uriRoot requestLine
  case none     => exact ⟨0, none, fun _ _ => rfl, by simp⟩
  case some uri =>
    by_cases hd : '.' ∈ uri
    case neg =>
      obtain ⟨found, hs, hconf⟩ := @search_of_no_dot service uri service.sortedRoutes hc hd
      refine ⟨uri.length + 2, found, hs, iff_of_true hconf fun u hu => ?_⟩
      exact fun h => absurd (Option.mem_some_iff.mp hu ▸ h) hd
    case pos =>
      refine ⟨0, _, fun n _ => search_of_dot hd, ?_⟩
      simp only [Option.mem_def, Option.some.injEq, forall_eq', StaysInside, hd, true_imp_iff]
      constructor
      case mp =>
        intro h before r after he hb hr
        refine (confined_iff hc).mp (h _ ?_)
        have hf : service.sortedRoutes.find? (service.hits uri) = some r :=
          List.find?_eq_some_iff_append.mpr ⟨hr, before, after, he, fun r' hr' => by simp [hb r' hr']⟩
        rw [hf, Option.map_some]
      case mpr =>
        intro h f hf
        obtain ⟨r, hr, rfl⟩ := Option.map_eq_some_iff.mp hf
        obtain ⟨hr, before, after, he, hb⟩ := List.find?_eq_some_iff_append.mp hr
        exact (confined_iff hc).mpr (h before r after he (fun r' hr' => by simpa using hb r' hr') hr)

-- A directory with a file next to it.
def webRoot : FileService where
  files.cwd       := []
  files.isFile    := fun path => path = ["srv".toList, "secret".toList]
  files.isDir     := fun _ => false
  files.cleanPath := id
  files.isRoot    := fun route => route = ['/']
  routes          := [("/".toList, "/srv/www".toList)]

theorem read_is_confined_iff_secret :
    ∃ rounds found, (∀ n, rounds ≤ n → webRoot.read ['/'] n "GET /secret HTTP/1.1\r\n".toList = some found) ∧
      ((∀ f ∈ found, webRoot.Confined f) ↔
        ∀ uri ∈ requestedUri ['/'] "GET /secret HTTP/1.1\r\n".toList, webRoot.StaysInside uri) :=
  read_is_confined_iff webRoot ['/'] "GET /secret HTTP/1.1\r\n".toList fun _ => rfl

theorem parent_directory_is_read : ¬∀ (service : FileService) uriRoot requestLine,
    (∀ path, service.files.dirAt (service.files.cleanPath path) = service.files.dirAt path) →
      ∃ rounds found, (∀ n, rounds ≤ n → service.read uriRoot n requestLine = some found) ∧
        ∀ f ∈ found, service.Confined f := by
  intro h
  obtain ⟨n, found, hr, hc⟩ := h webRoot ['/'] "GET /../secret HTTP/1.1\r\n".toList fun _ => rfl
  have hf : webRoot.read ['/'] n "GET /../secret HTTP/1.1\r\n".toList =
      some (some ⟨("/".toList, "/srv/www".toList), "/srv/www/../secret".toList⟩) := rfl
  obtain rfl := Option.some.inj ((hr n (Nat.le_refl _)).symm.trans hf)
  have hout : ¬["srv".toList, "www".toList] <+: ["srv".toList, "secret".toList] := by decide
  exact hout (hc _ rfl)

end FileService

end Yogi.Hub
