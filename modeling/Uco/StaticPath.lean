import Uco.FilePath
import Uco.Ustring
import Mathlib.Data.List.DropRight

/-! Static files: URL decoding, the dot-segment check, the join with the resource
directory, and the file that a request routed to default_handle opens. The check
and the join disagree about a path that begins with two slashes. -/
namespace Uco.StaticPath
open FilePath Ustring

inductive HttpMethod where
  | get | post | put | patch | head | options | delete | connect | trace
  deriving DecidableEq, Repr

def toUpper (c : UInt8) : UInt8 := if 97 ≤ c ∧ c ≤ 122 then c - 32 else c

def httpMethodTable : List (Bytes × HttpMethod) :=
  [(bytes "GET", .get), (bytes "POST", .post), (bytes "PUT", .put), (bytes "PATCH", .patch),
   (bytes "HEAD", .head), (bytes "OPTIONS", .options), (bytes "DELETE", .delete),
   (bytes "CONNECT", .connect), (bytes "TRACE", .trace)]

def httpMethodStr2Enum (method : Bytes) : HttpMethod :=
  (httpMethodTable.lookup (method.map toUpper)).getD .get

def questionMark : UInt8 := 63

def skipSlashes (path : Bytes) : Bytes := path.dropWhile (· = slash)
def readSegment (path : Bytes) : Bytes := path.takeWhile (· ≠ slash)
def afterSegment (path : Bytes) : Bytes := path.dropWhile (· ≠ slash)

theorem scanShorter (path : Bytes) (more : path ≠ []) :
    (afterSegment (skipSlashes path)).length < path.length := by
  obtain ⟨c, rest, rfl⟩ := List.exists_cons_of_ne_nil more
  have inner : (skipSlashes rest).length ≤ rest.length := (List.dropWhile_sublist _).length_le
  have outer (p : Bytes) : (afterSegment p).length ≤ p.length := (List.dropWhile_sublist _).length_le
  by_cases isSlash : c = slash
  · have skipped : skipSlashes (c :: rest) = skipSlashes rest := by simp [skipSlashes, isSlash]
    have := outer (skipSlashes rest)
    rw [skipped, List.length_cons]
    omega
  · have kept : afterSegment (skipSlashes (c :: rest)) = afterSegment rest := by
      simp [skipSlashes, afterSegment, isSlash]
    have := outer rest
    rw [kept, List.length_cons]
    omega

def isSafePath (urlPath : Bytes) : Bool :=
  if urlPath = [] then true
  else if readSegment (skipSlashes urlPath) = [dot] then false
  else if readSegment (skipSlashes urlPath) = [dot, dot] then false
  else isSafePath (afterSegment (skipSlashes urlPath))
  termination_by urlPath.length
  decreasing_by exact scanShorter urlPath (by assumption)

theorem segmentsSkip (path : Bytes) : segments (skipSlashes path) = segments path := by
  induction path with
  | nil => rfl
  | cons c rest ih =>
    by_cases isSlash : c = slash
    · simpa [skipSlashes, isSlash] using ih
    · simp [skipSlashes, isSlash]

theorem skipSlashesHead (path : Bytes) : (skipSlashes path).head? ≠ some slash := by
  intro starts
  have stopped := List.head?_dropWhile_not (fun x => decide (x = slash)) path
  rw [skipSlashes] at starts
  simp [starts] at stopped

theorem afterSegmentStop (path : Bytes) :
    afterSegment path = [] ∨ ∃ tail, afterSegment path = slash :: tail := by
  have stopped := List.head?_dropWhile_not (fun x => decide (x ≠ slash)) path
  rw [afterSegment]
  cases rest : path.dropWhile (fun x => decide (x ≠ slash)) with
  | nil => exact Or.inl rfl
  | cons c tail =>
    rw [rest] at stopped
    exact Or.inr ⟨tail, by simpa using stopped⟩

theorem segmentsScan (path : Bytes) :
    segments path = if skipSlashes path = [] then []
      else readSegment (skipSlashes path) :: segments (afterSegment (skipSlashes path)) := by
  rw [← segmentsSkip]
  have plain := skipSlashesHead path
  by_cases stop : skipSlashes path = []
  · simp [stop]
  · rw [if_neg stop]
    have parts : readSegment (skipSlashes path) ++ afterSegment (skipSlashes path) = skipSlashes path :=
      List.takeWhile_append_dropWhile
    conv_lhs => rw [← parts]
    refine segmentsRun _ _ ?_ ?_ (afterSegmentStop _)
    · obtain ⟨c, rest, starts⟩ := List.exists_cons_of_ne_nil stop
      have other : c ≠ slash := by simpa [starts] using plain
      simp [readSegment, starts, other]
    · intro inside
      simpa using List.mem_takeWhile_imp inside

theorem isSafePathIff (urlPath : Bytes) :
    isSafePath urlPath = true ↔ ∀ s ∈ segments urlPath, s ≠ [dot] ∧ s ≠ [dot, dot] := by
  induction urlPath using isSafePath.induct with
  | case1 => simp [isSafePath]
  | case2 path more isDot =>
    have read : skipSlashes path ≠ [] := by
      intro none
      simp [none, readSegment] at isDot
    rw [isSafePath, segmentsScan]
    simp [more, read, isDot]
  | case3 path more notDot isDots =>
    have read : skipSlashes path ≠ [] := by
      intro none
      simp [none, readSegment] at isDots
    rw [isSafePath, segmentsScan]
    simp [more, read, isDots]
  | case4 path more notDot notDots ih =>
    rw [isSafePath, if_neg more, if_neg notDot, if_neg notDots, ih, segmentsScan path]
    by_cases read : skipSlashes path = []
    · simp [read, afterSegment]
    · simp [read, notDot, notDots]

/- path_join strips one leading slash, then appends as std::filesystem does. -/
def pathJoin (a b : Bytes) : Bytes :=
  append a (if b.head? = some slash then b.drop 1 else b)

def doubleSlash (path : Bytes) : Prop := path.take 2 = [slash, slash]
instance (path : Bytes) : Decidable (doubleSlash path) := by unfold doubleSlash; infer_instance

/- Where a URL path leads: past two slashes to an absolute path of its own,
otherwise along its segments from the resource directory. -/
def Contained (dir urlPath : Bytes) : Prop :=
  if doubleSlash urlPath then Under dir (urlPath.drop 1)
  else normal dir <+: walk (normal dir) (moves urlPath)
instance (dir urlPath : Bytes) : Decidable (Contained dir urlPath) := by
  unfold Contained; infer_instance

theorem strippedAbsolute (b : Bytes) :
    isAbsolute (if b.head? = some slash then b.drop 1 else b) ↔ doubleSlash b := by
  match b with
  | [] => simp [isAbsolute, doubleSlash]
  | [c] => by_cases isSlash : c = slash <;> simp [isAbsolute, doubleSlash, isSlash]
  | c :: d :: rest => by_cases isSlash : c = slash <;> simp [isAbsolute, doubleSlash, isSlash]

theorem strippedMoves (b : Bytes) : moves (if b.head? = some slash then b.drop 1 else b) = moves b := by
  split
  · rename_i starts
    obtain ⟨tail, rfl⟩ := List.head?_eq_some_iff.mp starts
    simp [moves]
  · rfl

theorem pathJoinContained {dir : Bytes} (abs : isAbsolute dir) (urlPath : Bytes) :
    Under dir (pathJoin dir urlPath) ↔ Contained dir urlPath := by
  rw [Contained, pathJoin]
  by_cases two : doubleSlash urlPath
  · have starts : urlPath.head? = some slash := by
      rw [doubleSlash] at two
      have first := congrArg List.head? two
      simpa [List.head?_take] using first
    rw [if_pos two, appendAbsolute ((strippedAbsolute urlPath).mpr two), if_pos starts]
  · have rel := mt (strippedAbsolute urlPath).mp two
    rw [if_neg two, Under, normalAppend abs rel, strippedMoves]
    exact and_iff_right (absoluteAppend abs)

theorem safeWalk {urlPath : Bytes} (safe : isSafePath urlPath = true) (start : List Bytes) :
    start <+: walk start (moves urlPath) := by
  refine walkDown start _ fun m hm => ?_
  obtain ⟨segment, inPath, rfl⟩ := List.mem_map.mp hm
  have plain := (isSafePathIff urlPath).mp safe segment inPath
  exact ⟨segment, by simp [moveOf, plain.1, plain.2]⟩

theorem safeContained {dir urlPath : Bytes} (safe : isSafePath urlPath = true) :
    Contained dir urlPath ↔ ¬ doubleSlash urlPath ∨ Under dir (urlPath.drop 1) := by
  by_cases two : doubleSlash urlPath
  · simp [Contained, two]
  · simpa [Contained, two] using safeWalk safe (normal dir)

abbrev Handle := Bytes → Bytes → Bytes

def defaultHandle : Handle := fun requestUrl _ => requestUrl

def next (handles : List Handle) (requestUrl : Bytes) : Bytes :=
  handles.foldl (fun staticPath handle => handle requestUrl staticPath) []

def addStaticRoute (middleware : List Handle) : List Handle := middleware ++ [defaultHandle]

theorem nextStatic (middleware : List Handle) (requestUrl : Bytes) :
    next (addStaticRoute middleware) requestUrl = requestUrl := by
  simp [next, addStaticRoute, defaultHandle]

structure Server where
  resourceDir : Bytes
  absolute : isAbsolute resourceDir
  noNul : (0 : UInt8) ∉ resourceDir
  fwdDict : HttpMethod × Bytes → Option Bytes
  findHandles : HttpMethod → Bytes → List Handle

structure Request where
  method : Bytes
  path : Bytes
  deriving DecidableEq, Repr

inductive Outcome where
  | redirect (location : Bytes)
  | errorPage (code : Nat)
  | handled (opened : Option Bytes)
  deriving DecidableEq, Repr

def getForward (server : Server) (method : HttpMethod) (path : Bytes) : Bytes :=
  (server.fwdDict (method, path)).getD []

def Request.decodedPath (request : Request) : Bytes :=
  urlDecode (request.path.takeWhile (· ≠ questionMark)) false

def trailingSlash (path : Bytes) : Prop := path.length > 1 ∧ path.getLast? = some slash
instance (path : Bytes) : Decidable (trailingSlash path) := by unfold trailingSlash; infer_instance

/- m_sPath once the forward table was asked; a registered forward has priority. -/
def requestUrl (server : Server) (request : Request) : Bytes :=
  let fwdPath := getForward server (httpMethodStr2Enum request.method) request.decodedPath
  if fwdPath = [] then request.decodedPath else fwdPath

def getResource (server : Server) (staticPath : Bytes) : Option Bytes :=
  if staticPath = [] then none else some (cString (pathJoin server.resourceDir staticPath))

def handleRequest (server : Server) (request : Request) : Outcome :=
  if trailingSlash request.path then .redirect request.path.dropLast
  else if isSafePath request.decodedPath = false then .errorPage 400
  else
    let url := requestUrl server request
    let handles := server.findHandles (httpMethodStr2Enum request.method) url
    if handles = [] then .errorPage 404
    else .handled (getResource server (next handles url))

/- The request passes the checks and its handler chain ends in default_handle. -/
structure RoutedToDefault (server : Server) (request : Request) : Prop where
  plain : ¬ trailingSlash request.path
  safe : isSafePath request.decodedPath = true
  chain : ∃ middleware, server.findHandles (httpMethodStr2Enum request.method)
    (requestUrl server request) = addStaticRoute middleware

def StaysInside (server : Server) (request : Request) : Prop :=
  ∀ file, handleRequest server request = .handled (some file) → Under server.resourceDir file

theorem routedFile {server : Server} {request : Request} (routed : RoutedToDefault server request) :
    handleRequest server request = .handled (getResource server (requestUrl server request)) := by
  obtain ⟨middleware, chain⟩ := routed.chain
  have some : addStaticRoute middleware ≠ [] := by simp [addStaticRoute]
  simp [handleRequest, routed.plain, routed.safe, chain, some, nextStatic]

theorem cStringJoin {dir : Bytes} (noNul : (0 : UInt8) ∉ dir) (urlPath : Bytes) :
    cString (pathJoin dir urlPath) = pathJoin dir (cString urlPath) := by
  have sameHead := cStringAbsolute urlPath
  unfold isAbsolute at sameHead
  rw [pathJoin, cStringAppend noNul, pathJoin]
  by_cases starts : urlPath.head? = some slash
  · rw [if_pos starts, if_pos (sameHead.mpr starts)]
    obtain ⟨tail, rfl⟩ := List.head?_eq_some_iff.mp starts
    have kept : cString (slash :: tail) = slash :: cString tail :=
      List.takeWhile_cons_of_pos (by decide)
    rw [kept]
    rfl
  · rw [if_neg starts, if_neg (mt sameHead.mp starts)]

theorem routedStaysInside {server : Server} {request : Request}
    (routed : RoutedToDefault server request) :
    StaysInside server request ↔
      Contained server.resourceDir (cString (requestUrl server request)) := by
  rw [StaysInside, routedFile routed]
  by_cases empty : requestUrl server request = []
  · simp [getResource, empty, Contained, doubleSlash, cString, moves]
  · rw [← pathJoinContained server.absolute, ← cStringJoin server.noNul]
    simp [getResource, empty]

/- Static files stay under the resource directory, for the join on its own and
for the file opened, except where the URL path walks or points out of it. -/
theorem staticFilesInsideIff (dir urlPath : Bytes) (server : Server) (request : Request) :
    (isAbsolute dir → isSafePath urlPath = true →
      (Under dir (pathJoin dir urlPath) ↔ ¬ doubleSlash urlPath ∨ Under dir (urlPath.drop 1))) ∧
    (RoutedToDefault server request →
      (StaysInside server request ↔
        Contained server.resourceDir (cString (requestUrl server request)))) :=
  ⟨fun abs safe => (pathJoinContained abs urlPath).trans (safeContained safe), routedStaysInside⟩

def cssServer : Server where
  resourceDir := bytes "/srv/resources"
  absolute := by decide
  noNul := by decide
  fwdDict := fun _ => none
  findHandles := fun method path =>
    if method = .get ∧ (segments path).head? = some (bytes "css") then addStaticRoute [] else []

def cssRequest (path : String) : Request := ⟨bytes "GET", bytes path⟩

theorem cssRouted {path : String} (plain : ¬ trailingSlash (bytes path))
    (safe : isSafePath (cssRequest path).decodedPath = true)
    (css : (segments (cssRequest path).decodedPath).head? = some (bytes "css")) :
    RoutedToDefault cssServer (cssRequest path) :=
  have get : httpMethodStr2Enum (bytes "GET") = .get := by decide
  ⟨plain, safe, [], if_pos ⟨get, css⟩⟩

theorem siteStyleInside :
    Under (bytes "/srv/resources") (pathJoin (bytes "/srv/resources") (bytes "/css/site.css")) ∧
    StaysInside cssServer (cssRequest "/css/site.css") := by
  have inside := staticFilesInsideIff (bytes "/srv/resources") (bytes "/css/site.css") cssServer
    (cssRequest "/css/site.css")
  have routed : RoutedToDefault cssServer (cssRequest "/css/site.css") :=
    cssRouted (by decide) ((isSafePathIff _).mpr (by decide)) (by decide)
  exact ⟨(inside.1 (by decide) ((isSafePathIff _).mpr (by decide))).mpr (by decide),
    (inside.2 routed).mpr (by decide)⟩

/- GET //css/site.css passes the check and opens /css/site.css at the file system root. -/
theorem secondSlashEscapes :
    isAbsolute (bytes "/srv/resources") ∧ isSafePath (bytes "//css/site.css") = true ∧
    ¬ Under (bytes "/srv/resources") (pathJoin (bytes "/srv/resources") (bytes "//css/site.css")) ∧
    RoutedToDefault cssServer (cssRequest "//css/site.css") ∧
    handleRequest cssServer (cssRequest "//css/site.css") =
      .handled (some (bytes "/css/site.css")) ∧
    ¬ StaysInside cssServer (cssRequest "//css/site.css") := by
  have safe : isSafePath (bytes "//css/site.css") = true := (isSafePathIff _).mpr (by decide)
  have routed : RoutedToDefault cssServer (cssRequest "//css/site.css") :=
    cssRouted (by decide) ((isSafePathIff _).mpr (by decide)) (by decide)
  refine ⟨by decide, safe, by decide, routed, ?_, fun inside => ?_⟩
  · rw [routedFile routed]; decide
  · have contained := (routedStaysInside routed).mp inside
    revert contained
    decide

end Uco.StaticPath
