import Uco.Cookie
import Uco.MustacheRender

/-! The response object: its headers, the head that GenHttpHeader writes, the body behind it,
and a client that finds the end of each response by its Content-length. -/
namespace Uco.ResponseHead
open HttpRequest (splitAtByte splitSome splitParts splitShorter colon lineFeed carriageReturn)
open Fragmentation (crlf)
open Resp (decimalText isDigit)
open RespGrammar (numeralOf)
open RespRoundTrip (numberText decimalDigits decimalNumeral decimalSome numberNumeral)
open PartialResponse (Headers setHeader overwrite headerValue)
open Ustring (tolower equalsIgnoreCase)
open ByteRange (toSize)
open Cookie (trim blank trimSpace trimPlain)
open Mustache (Data)

section Tables

def httpRetCodes : List (Int × Bytes) :=
  [(100,bytes "Continue"),(101,bytes "Switching Protocols"),(102,bytes "Processing"),(103,bytes "Early Hints"),
   (200,bytes "OK"),(201,bytes "Created"),(202,bytes "Accepted"),(203,bytes "Non-Authoritative Information"),
   (204,bytes "No Content"),(205,bytes "Reset Content"),(206,bytes "Partial Content"),(207,bytes "Multi-Status"),
   (208,bytes "Already Reported"),(226,bytes "IM Used"),
   (300,bytes "Multiple Choices"),(301,bytes "Moved Permanently"),(302,bytes "Found"),(303,bytes "See Other"),
   (304,bytes "Not Modified"),(305,bytes "Use Proxy"),(307,bytes "Temporary Redirect"),
   (308,bytes "Permanent Redirect"),
   (400,bytes "Bad Request"),(401,bytes "Unauthorized"),(402,bytes "Payment Required"),(403,bytes "Forbidden"),
   (404,bytes "Not Found"),(405,bytes "Method Not Allowed"),(406,bytes "Not Acceptable"),
   (407,bytes "Proxy Authentication Required"),(408,bytes "Request Timeout"),(409,bytes "Conflict"),
   (410,bytes "Gone"),(411,bytes "Length Required"),(412,bytes "Precondition Failed"),
   (413,bytes "Payload Too Large"),(414,bytes "URI Too Long"),(415,bytes "Unsupported Media Type"),
   (416,bytes "Range Not Satisfiable"),(417,bytes "Expectation Failed"),(418,bytes "I\x27m a teapot"),
   (421,bytes "Misdirected Request"),(422,bytes "Unprocessable Entity"),(423,bytes "Locked"),
   (424,bytes "Failed Dependency"),(425,bytes "Too Early"),(426,bytes "Upgrade Required"),
   (428,bytes "Precondition Required"),(429,bytes "Too Many Requests"),
   (431,bytes "Request Header Fields Too Large"),(451,bytes "Unavailable For Legal Reasons"),
   (500,bytes "Internal Server Error"),(501,bytes "Not Implemented"),(502,bytes "Bad Gateway"),
   (503,bytes "Service Unavailable"),(504,bytes "Gateway Timeout"),(505,bytes "HTTP Version Not Supported"),
   (506,bytes "Variant Also Negotiates"),(507,bytes "Insufficient Storage"),(508,bytes "Loop Detected"),
   (510,bytes "Not Extended"),(511,bytes "Network Authentication Required")]

def httpRetCode2StatusString (code : Int) : Bytes := (httpRetCodes.lookup code).getD []

def fileTypes : List (Bytes × Bytes) :=
  [(bytes ".html",bytes "text/html"),(bytes ".htm",bytes "text/html"),(bytes ".xml",bytes "text/xml"),
   (bytes ".xhtml",bytes "application/xhtml+xml"),(bytes ".txt",bytes "text/plain"),
   (bytes ".rtf",bytes "application/rtf"),(bytes ".pdf",bytes "application/pdf"),
   (bytes ".doc",bytes "application/msword"),
   (bytes ".docx",bytes "application/vnd.openxmlformats-officedocument.wordprocessingml.document"),
   (bytes ".xls",bytes "application/vnd.ms-excel"),
   (bytes ".xlsx",bytes "application/vnd.openxmlformats-officedocument.spreadsheetml.sheet"),
   (bytes ".ppt",bytes "application/vnd.ms-powerpoint"),
   (bytes ".pptx",bytes "application/vnd.openxmlformats-officedocument.presentationml.presentation"),
   (bytes ".png",bytes "image/png"),(bytes ".gif",bytes "image/gif"),(bytes ".jpg",bytes "image/jpeg"),
   (bytes ".jpeg",bytes "image/jpeg"),(bytes ".bmp",bytes "image/bmp"),(bytes ".svg",bytes "image/svg+xml"),
   (bytes ".ico",bytes "image/x-icon"),(bytes ".webp",bytes "image/webp"),(bytes ".mp3",bytes "audio/mpeg"),
   (bytes ".wav",bytes "audio/wav"),(bytes ".ogg",bytes "audio/ogg"),(bytes ".oga",bytes "audio/ogg"),
   (bytes ".mid",bytes "audio/midi"),(bytes ".midi",bytes "audio/midi"),(bytes ".amr",bytes "audio/amr"),
   (bytes ".mp4",bytes "video/mp4"),(bytes ".mpeg",bytes "video/mpeg"),(bytes ".mpg",bytes "video/mpeg"),
   (bytes ".mov",bytes "video/quicktime"),(bytes ".avi",bytes "video/x-msvideo"),
   (bytes ".wmv",bytes "video/x-ms-wmv"),(bytes ".flv",bytes "video/x-flv"),(bytes ".webm",bytes "video/webm"),
   (bytes ".ogv",bytes "video/ogg"),(bytes ".zip",bytes "application/zip"),
   (bytes ".tar",bytes "application/x-tar"),(bytes ".gz",bytes "application/gzip"),
   (bytes ".rar",bytes "application/vnd.rar"),(bytes ".7z",bytes "application/x-7z-compressed"),
   (bytes ".css",bytes "text/css"),(bytes ".js",bytes "application/javascript"),
   (bytes ".json",bytes "application/json"),(bytes ".csv",bytes "text/csv"),
   (bytes ".tsv",bytes "text/tab-separated-values"),(bytes ".md",bytes "text/markdown"),
   (bytes ".yaml",bytes "application/x-yaml"),(bytes ".yml",bytes "application/x-yaml"),
   (bytes ".exe",bytes "application/octet-stream"),(bytes ".bin",bytes "application/octet-stream"),
   (bytes ".dll",bytes "application/octet-stream"),(bytes ".deb",bytes "application/vnd.debian.binary-package"),
   (bytes ".iso",bytes "application/x-iso9660-image"),(bytes ".epub",bytes "application/epub+zip")]

def pathSuffix2FileType (suffix : Bytes) : Bytes := (fileTypes.lookup suffix).getD (bytes "text/plain")

def dot : UInt8 := 46

def getFileTypeByPath (path : Bytes) : Bytes :=
  if dot ∈ path then pathSuffix2FileType (dot :: (path.reverse.takeWhile (· ≠ dot)).reverse)
  else pathSuffix2FileType (bytes ".txt")

end Tables

section Model

structure Opened where
  file : Bytes
  read : Option Bytes
  small : file.length ≤ int32Max

structure HttpResponse where
  retCode : Int
  partialFrom : Int
  partialTo : Int
  keepAliveCount : Int
  keepAliveTime : Int
  keepAlive : Bool
  shouldGenErrorPage : Bool
  resourceIsTemplate : Bool
  pCache : Option Opened
  moreHeader : Headers
  templateArgs : Data
  contentType : Bytes
  staticResourcePath : Bytes
  headerBuffer : Bytes
  contentBuffer : Bytes

namespace HttpResponse

def reset (r : HttpResponse) : HttpResponse :=
  { r with
    retCode := 0
    pCache := none
    partialFrom := 0
    partialTo := 0
    shouldGenErrorPage := false
    resourceIsTemplate := false
    contentType := pathSuffix2FileType (bytes ".html")
    moreHeader := []
    templateArgs := .object []
    staticResourcePath := []
    headerBuffer := []
    contentBuffer := [] }

def fresh (keepAliveCount keepAliveTime : Int) : HttpResponse :=
  reset ⟨0,0,0,keepAliveCount,keepAliveTime,false,false,false,none,[],.object [],[],[],[],[]⟩

def resetContent (r : HttpResponse) : HttpResponse :=
  { r with
    shouldGenErrorPage := false
    resourceIsTemplate := false
    pCache := none
    templateArgs := .object []
    staticResourcePath := []
    contentBuffer := [] }

def setHeader (r : HttpResponse) (key value : Bytes) : HttpResponse :=
  { r with moreHeader := PartialResponse.setHeader r.moreHeader key value }

def filePart (r : HttpResponse) (o : Opened) : PartialResponse.Response :=
  ⟨r.retCode.toNat,r.moreHeader,r.partialFrom,r.partialTo,o.file.length⟩

def contentLength (r : HttpResponse) : Nat :=
  match r.pCache with
  | some o => (r.filePart o).contentLength
  | none => r.contentBuffer.length

def hasCacheControl (more : Headers) : Bool := more.any fun h => equalsIgnoreCase h.1 (bytes "Cache-Control")

def connectionText (r : HttpResponse) : Bytes :=
  if r.keepAlive then
    bytes "keep-alive" ++ crlf ++ (bytes "keep-alive: max=" ++ numberText r.keepAliveCount ++ bytes ", timeout=" ++
      numberText r.keepAliveTime ++ crlf)
  else bytes "close" ++ crlf

def headerLine (h : Bytes × Bytes) : Bytes := h.1 ++ bytes ": " ++ h.2 ++ crlf

def genHttpHeader (r : HttpResponse) : HttpResponse :=
  let r := if hasCacheControl r.moreHeader then r else r.setHeader (bytes "Cache-Control") (bytes "no-cache")
  { r with
    headerBuffer := r.headerBuffer ++ bytes "HTTP/1.1 " ++ numberText r.retCode ++ bytes " " ++
      httpRetCode2StatusString r.retCode ++ (crlf ++ bytes "Connection: ") ++ r.connectionText ++
      r.moreHeader.flatMap headerLine ++ (bytes "Content-type: " ++ r.contentType ++ crlf) ++
      (bytes "Content-length: " ++ decimalText r.contentLength ++ crlf ++ crlf) }

def body (r : HttpResponse) (head : Bool) : Bytes :=
  if head then []
  else
    match r.pCache with
    | some o => (r.filePart o).sent o.file
    | none => r.contentBuffer

def written (r : HttpResponse) (head : Bool) : Bytes := r.headerBuffer ++ r.body head

def genErrorPageDefault (r : HttpResponse) (code : Int) : HttpResponse :=
  { r with
    staticResourcePath := []
    pCache := none
    retCode := code
    contentBuffer := bytes "<html><title>Error</title><body bgcolor=\x22ffffff\x22>" ++ numberText code ++
      bytes " - " ++ httpRetCode2StatusString code ++ bytes "<hr><em>TinyWebServer</em></body></html>"
    contentType := pathSuffix2FileType (bytes ".html") }

def setShouldGenErrorPage (r : HttpResponse) (code : Int) : HttpResponse :=
  { r.reset with shouldGenErrorPage := true, retCode := code }

end HttpResponse

end Model

section Client

def takeLine (stream : Bytes) : Option (Bytes × Bytes) :=
  match splitAtByte lineFeed stream with
  | none => none
  | some (line,rest) => if line.getLast? = some carriageReturn then some (line.dropLast,rest) else none

theorem takeLineShorter {stream line rest : Bytes} (taken : takeLine stream = some (line,rest)) :
    rest.length < stream.length := by
  rw [takeLine] at taken
  split at taken
  · cases taken
  · rename_i split
    obtain ⟨-,same⟩ := Option.ite_none_right_eq_some.mp taken
    cases same
    exact splitShorter split

set_option linter.unusedVariables false in
def takeFields (stream : Bytes) : Option (Headers × Bytes) :=
  match taken : takeLine stream with
  | none => none
  | some (line,rest) =>
    if line = [] then some ([],rest)
    else
      match splitAtByte colon line with
      | none => none
      | some (name,value) => (takeFields rest).map fun (fields,rest) => ((name,trim value) :: fields,rest)
  termination_by stream.length
  decreasing_by exact takeLineShorter taken

structure Received where
  retCode : Int
  reason : Bytes
  fields : Headers
  body : Bytes
  deriving DecidableEq, Repr

def takeStatus (line : Bytes) : Option (Int × Bytes) :=
  if (bytes "HTTP/1.1 ").isPrefixOf line then
    match splitAtByte HttpRequest.space (line.drop 9) with
    | none => none
    | some (code,reason) => (numeralOf code).map (·,reason)
  else none

def framing (name : Bytes) : Bool :=
  equalsIgnoreCase name (bytes "Content-Length") || equalsIgnoreCase name (bytes "Transfer-Encoding")

def announced (fields : Headers) : Option Nat :=
  match fields.filter (framing ·.1) with
  | [(name,value)] =>
    if equalsIgnoreCase name (bytes "Content-Length") then
      match numeralOf value with
      | some (.ofNat n) => some n
      | _ => none
    else none
  | _ => none

def readResponse (head : Bool) (stream : Bytes) : Option (Received × Bytes) := do
  let (line,stream) ← takeLine stream
  let (retCode,reason) ← takeStatus line
  let (fields,stream) ← takeFields stream
  let n ← announced fields
  let n := if head then 0 else n
  if n ≤ stream.length then some (⟨retCode,reason,fields,stream.take n⟩,stream.drop n) else none

def readResponses : List Bool → Bytes → Option (List Received)
  | [], stream => if stream = [] then some [] else none
  | head :: heads, stream => do
    let (received,rest) ← readResponse head stream
    let later ← readResponses heads rest
    some (received :: later)

end Client

section Headers

def folded (name : Bytes) : Bytes := name.map tolower

def isCookie (h : Bytes × Bytes) : Bool := equalsIgnoreCase h.1 (bytes "Set-Cookie")

theorem sameFolded {a b : Bytes} : equalsIgnoreCase a b = true ↔ folded a = folded b := decide_eq_true_iff

theorem otherFolded {a b : Bytes} : equalsIgnoreCase a b = false ↔ folded a ≠ folded b := decide_eq_false_iff_not

theorem sameCookie {h g : Bytes × Bytes} (same : folded h.1 = folded g.1) : isCookie h = isCookie g := by
  simp only [isCookie, equalsIgnoreCase]
  rw [← folded, same]
  rfl

theorem overwriteParts {key value : Bytes} {more changed : Headers} (found : overwrite key value more = some changed) :
    ∃ before h after, more = before ++ h :: after ∧ folded h.1 = folded key ∧
      (∀ g ∈ before, folded g.1 ≠ folded key) ∧ changed = before ++ (key,value) :: after := by
  induction more generalizing changed with
  | nil => cases found
  | cons h rest ih =>
    simp only [overwrite] at found
    split at found
    · rename_i same
      cases found
      exact ⟨[],h,rest,rfl,sameFolded.mp same,by simp,rfl⟩
    · rename_i other
      obtain ⟨tail,inside,rfl⟩ := Option.map_eq_some_iff.mp found
      obtain ⟨before,g,after,rfl,same,clean,rfl⟩ := ih inside
      refine ⟨h :: before,g,after,rfl,same,?_,rfl⟩
      intro k inside
      rcases List.mem_cons.mp inside with rfl | later
      · exact fun same => other (sameFolded.mpr same)
      · exact clean k later

theorem overwriteAbsent {key value : Bytes} {more : Headers} (absent : overwrite key value more = none) :
    ∀ h ∈ more, folded h.1 ≠ folded key := by
  intro h inside same
  have none' := List.find?_eq_none.mp (PartialResponse.overwriteNone absent) h inside
  exact none' (sameFolded.mpr same)

structure Kept (calls more : Headers) : Prop where
  last : ∀ name, folded name ≠ folded (bytes "Set-Cookie") →
    headerValue more name = headerValue calls.reverse name
  cookies : more.filter isCookie = calls.filter isCookie
  once : ((more.filter fun h => !isCookie h).map fun h => folded h.1).Nodup

theorem keptNone : Kept [] [] := ⟨fun _ _ => rfl,rfl,List.nodup_nil⟩

theorem headerValueCons (h : Bytes × Bytes) (more : Headers) (name : Bytes) :
    headerValue (h :: more) name = if folded h.1 = folded name then some h.2 else headerValue more name := by
  simp only [headerValue, List.find?_cons]
  by_cases same : folded h.1 = folded name
  · rw [sameFolded.mpr same, if_pos same]
    rfl
  · rw [otherFolded.mpr same, if_neg same]

theorem headerValueSkips {before : Headers} {name : Bytes} (other : ∀ g ∈ before, folded g.1 ≠ folded name)
    (more : Headers) : headerValue (before ++ more) name = headerValue more name := by
  induction before with
  | nil => rfl
  | cons g before ih =>
    rw [List.cons_append, headerValueCons, if_neg (other g List.mem_cons_self)]
    exact ih fun h inside => other h (List.mem_cons_of_mem g inside)

theorem headerValueOther {before after : Headers} {h : Bytes × Bytes} {name : Bytes}
    (other : folded h.1 ≠ folded name) :
    headerValue (before ++ h :: after) name = headerValue (before ++ after) name := by
  induction before with
  | nil => rw [List.nil_append, List.nil_append, headerValueCons, if_neg other]
  | cons g before ih =>
    simp only [List.cons_append, headerValueCons]
    rw [ih]

theorem keptCookie {calls more : Headers} (kept : Kept calls more) {key : Bytes} (value : Bytes)
    (cookie : isCookie (key,value) = true) : Kept (calls ++ [(key,value)]) (more ++ [(key,value)]) := by
  refine ⟨fun name other => ?_,?_,?_⟩
  · have apart : folded key ≠ folded name := fun same => other (same ▸ sameFolded.mp cookie)
    rw [headerValueOther apart, List.append_nil, kept.last name other, List.reverse_concat, headerValueCons,
      if_neg apart]
  · simp only [List.filter_append, kept.cookies]
  · rw [List.filter_append, List.filter_cons, cookie]
    simpa using kept.once

theorem keptSingle {calls more : Headers} (kept : Kept calls more) {key : Bytes} (value : Bytes)
    (single : isCookie (key,value) = false) :
    Kept (calls ++ [(key,value)]) ((overwrite key value more).getD (more ++ [(key,value)])) := by
  have shown (name : Bytes) (changed : Headers) (here : folded key = folded name → headerValue changed name = some value)
      (elsewhere : folded key ≠ folded name → headerValue changed name = headerValue more name)
      (other : folded name ≠ folded (bytes "Set-Cookie")) :
      headerValue changed name = headerValue (calls ++ [(key,value)]).reverse name := by
    rw [List.reverse_concat, headerValueCons]
    by_cases same : folded key = folded name
    · rw [if_pos same, here same]
    · rw [if_neg same, elsewhere same, kept.last name other]
  have cookies : (calls ++ [(key,value)]).filter isCookie = more.filter isCookie := by
    rw [List.filter_append, kept.cookies, List.filter_cons, single]
    simp
  cases found : overwrite key value more with
  | none =>
    have absent := overwriteAbsent found
    refine ⟨fun name => shown name _ (fun same => ?_) fun apart => ?_,?_,?_⟩
    · rw [Option.getD_none, headerValueSkips fun g inside => same ▸ absent g inside, headerValueCons, if_pos same]
    · rw [Option.getD_none, headerValueOther apart, List.append_nil]
    · rw [cookies, Option.getD_none, List.filter_append, List.filter_cons, single]
      simp
    · rw [Option.getD_none, List.filter_append, List.filter_cons, single, List.map_append]
      refine List.nodup_append.mpr ⟨kept.once,by simp,?_⟩
      intro a inside b last
      obtain ⟨h,kept',rfl⟩ := List.mem_map.mp inside
      have key' : b = folded key := by simpa using last
      exact key' ▸ absent h (List.mem_of_mem_filter kept')
  | some changed =>
    obtain ⟨before,h,after,rfl,same,clean,rfl⟩ := overwriteParts found
    have replaced : isCookie h = false := (sameCookie same).trans single
    rw [Option.getD_some]
    refine ⟨fun name => shown name _ (fun here => ?_) fun apart => ?_,?_,?_⟩
    · rw [headerValueSkips fun g inside => here ▸ clean g inside, headerValueCons, if_pos here]
    · rw [headerValueOther apart, headerValueOther (same ▸ apart)]
    · rw [cookies]
      simp [single, replaced]
    · have once := kept.once
      simp only [List.filter_append, List.filter_cons, replaced, single, Bool.not_false, if_true, List.map_append,
        List.map_cons, same] at once ⊢
      exact once

def setHeaders (calls : Headers) : Headers := calls.foldl (fun more h => setHeader more h.1 h.2) []

theorem keptAll (calls : Headers) : Kept calls (setHeaders calls) := by
  induction calls using List.reverseRecOn with
  | nil => exact keptNone
  | append_singleton calls h ih =>
    have step : setHeaders (calls ++ [h]) = setHeader (setHeaders calls) h.1 h.2 := by
      rw [setHeaders, List.foldl_concat]
      rfl
    rw [step, setHeader]
    split
    · rename_i cookie
      exact keptCookie ih h.2 cookie
    · rename_i single
      exact keptSingle ih h.2 (Bool.eq_false_iff.mpr single)

end Headers

section Fields

namespace HttpResponse

def fields (r : HttpResponse) : Headers :=
  (if r.keepAlive then
    [(bytes "Connection",bytes "keep-alive"),
      (bytes "keep-alive",bytes "max=" ++ numberText r.keepAliveCount ++ bytes ", timeout=" ++ numberText r.keepAliveTime)]
    else [(bytes "Connection",bytes "close")]) ++
  r.moreHeader ++ [(bytes "Content-type",r.contentType),(bytes "Content-length",decimalText r.contentLength)]

def statusLine (r : HttpResponse) : Bytes :=
  bytes "HTTP/1.1 " ++ (numberText r.retCode ++ HttpRequest.space :: httpRetCode2StatusString r.retCode)

end HttpResponse

structure CleanHeader (h : Bytes × Bytes) : Prop where
  name : lineFeed ∉ h.1
  noColon : colon ∉ h.1
  value : lineFeed ∉ h.2
  framing : framing h.1 = false

structure Sane (r : HttpResponse) : Prop where
  headers : ∀ h ∈ r.moreHeader, CleanHeader h
  contentType : lineFeed ∉ r.contentType
  buffer : r.headerBuffer = []
  range : ∀ o, r.pCache = some o → r.partialFrom = 0 ∧ r.partialTo = 0 ∨
    0 ≤ r.partialFrom ∧ r.partialFrom ≤ r.partialTo ∧ r.partialTo < o.file.length

def HttpResponse.received (r : HttpResponse) (head : Bool) : Received where
  retCode := r.retCode
  reason := httpRetCode2StatusString r.retCode
  fields := r.fields.map fun h => (h.1,trim h.2)
  body := r.body head

theorem decimalClean (n : Nat) {c : UInt8} (other : isDigit c = false) : c ∉ decimalText n := fun inside => by
  have digit := List.all_eq_true.mp (decimalDigits n) c inside
  rw [other] at digit
  cases digit

theorem numberClean (v : Int) {c : UInt8} (other : isDigit c = false) (unsigned : c ≠ Resp.minus) : c ∉ numberText v := by
  rw [numberText]
  split
  · rw [List.mem_cons, not_or]
    exact ⟨unsigned,decimalClean _ other⟩
  · exact decimalClean _ other

theorem reasonClean (code : Int) : lineFeed ∉ httpRetCode2StatusString code := by
  have all : ∀ entry ∈ httpRetCodes, lineFeed ∉ entry.2 := by decide
  rw [httpRetCode2StatusString]
  cases found : httpRetCodes.lookup code with
  | none => exact List.not_mem_nil
  | some reason =>
    obtain ⟨before,after,same,-⟩ := List.lookup_eq_some_iff.mp found
    exact all (code,reason) (by simp [same])

theorem fileTypeClean (suffix : Bytes) : lineFeed ∉ pathSuffix2FileType suffix := by
  have all : ∀ entry ∈ fileTypes, lineFeed ∉ entry.2 := by decide
  rw [pathSuffix2FileType]
  cases found : fileTypes.lookup suffix with
  | none => decide
  | some type =>
    obtain ⟨before,after,same,-⟩ := List.lookup_eq_some_iff.mp found
    exact all (suffix,type) (by simp [same])

theorem pathTypeClean (path : Bytes) : lineFeed ∉ getFileTypeByPath path := by
  rw [getFileTypeByPath]
  split <;> exact fileTypeClean _

theorem takeLineFront {line : Bytes} (clean : lineFeed ∉ line) (rest : Bytes) :
    takeLine (line ++ crlf ++ rest) = some (line,rest) := by
  have front : lineFeed ∉ line ++ [carriageReturn] := by
    rw [List.mem_append, not_or]
    exact ⟨clean,by decide⟩
  have shape : line ++ crlf ++ rest = (line ++ [carriageReturn]) ++ lineFeed :: rest := by simp [crlf]
  rw [takeLine, shape, splitSome front]
  simp

theorem takeFieldsBlank {stream rest : Bytes} (taken : takeLine stream = some ([],rest)) :
    takeFields stream = some ([],rest) := by
  rw [takeFields]
  split
  · rename_i none'
    rw [taken] at none'
    cases none'
  · rename_i same
    cases taken.symm.trans same
    rfl

theorem takeFieldsLine {stream line rest name value : Bytes} (taken : takeLine stream = some (line,rest))
    (cut : splitAtByte colon line = some (name,value)) :
    takeFields stream = (takeFields rest).map fun (fields,rest) => ((name,trim value) :: fields,rest) := by
  rw [takeFields]
  split
  · rename_i none'
    rw [taken] at none'
    cases none'
  · rename_i same
    cases taken.symm.trans same
    rw [cut, if_neg]
    rintro rfl
    cases cut

theorem takeFieldsAll {fields : Headers} (clean : ∀ h ∈ fields, lineFeed ∉ h.1 ∧ colon ∉ h.1 ∧ lineFeed ∉ h.2)
    (rest : Bytes) : takeFields (fields.flatMap HttpResponse.headerLine ++ crlf ++ rest) =
      some (fields.map fun h => (h.1,trim h.2),rest) := by
  induction fields with
  | nil => exact takeFieldsBlank (@takeLineFront [] List.not_mem_nil rest)
  | cons h fields ih =>
    obtain ⟨⟨name,noColon,value⟩,later⟩ := List.forall_mem_cons.mp clean
    have front : lineFeed ∉ h.1 ++ colon :: Cookie.space :: h.2 := by
      simp only [List.mem_append, List.mem_cons, not_or]
      exact ⟨name,by decide,by decide,value⟩
    have shape : (h :: fields).flatMap HttpResponse.headerLine ++ crlf ++ rest =
        (h.1 ++ colon :: Cookie.space :: h.2) ++ crlf ++ (fields.flatMap HttpResponse.headerLine ++ crlf ++ rest) := by
      rw [List.flatMap_cons, HttpResponse.headerLine, show bytes ": " = [colon,Cookie.space] from rfl]
      simp only [List.append_assoc, List.cons_append, List.nil_append]
    rw [shape, takeFieldsLine (takeLineFront front _) (splitSome noColon _), ih later, trimSpace]
    rfl

end Fields

section Reading
variable {r : HttpResponse}

theorem memSetHeader {more : Headers} {key value : Bytes} {h : Bytes × Bytes}
    (inside : h ∈ setHeader more key value) : h = (key,value) ∨ h ∈ more := by
  rw [setHeader] at inside
  split at inside
  · rcases List.mem_append.mp inside with old | new
    · exact .inr old
    · exact .inl (List.mem_singleton.mp new)
  · cases found : overwrite key value more with
    | none =>
      rw [found, Option.getD_none] at inside
      rcases List.mem_append.mp inside with old | new
      · exact .inr old
      · exact .inl (List.mem_singleton.mp new)
    | some changed =>
      obtain ⟨before,g,after,rfl,-,-,rfl⟩ := overwriteParts found
      rw [found, Option.getD_some] at inside
      simp only [List.mem_append, List.mem_cons] at inside ⊢
      rcases inside with old | new | old
      · exact .inr (.inl old)
      · exact .inl new
      · exact .inr (.inr (.inr old))

theorem saneSetHeader (sane : Sane r) {key value : Bytes} (clean : CleanHeader (key,value)) :
    Sane (r.setHeader key value) := by
  refine ⟨fun h inside => ?_,sane.contentType,sane.buffer,sane.range⟩
  rcases memSetHeader inside with rfl | old
  · exact clean
  · exact sane.headers h old

def HttpResponse.policed (r : HttpResponse) : HttpResponse :=
  if hasCacheControl r.moreHeader then r else r.setHeader (bytes "Cache-Control") (bytes "no-cache")

/- The headers of a head after a sequence of calls of SetHeader: the last value of a name counts, no
name but that of cookies stands twice, every cookie stands in its order, and there is a cache policy. -/
structure Settled (calls more : Headers) : Prop where
  last : ∀ name, folded name ≠ folded (bytes "Set-Cookie") → headerValue more name =
    (headerValue calls.reverse name).or
      (if equalsIgnoreCase name (bytes "Cache-Control") then some (bytes "no-cache") else none)
  cookies : more.filter isCookie = calls.filter isCookie
  once : ((more.filter fun h => !isCookie h).map fun h => folded h.1).Nodup

theorem headersSettled (r : HttpResponse) (calls : Headers) :
    Settled calls ({ r with moreHeader := setHeaders calls }).genHttpHeader.moreHeader := by
  have kept := keptAll calls
  have done : ({ r with moreHeader := setHeaders calls } : HttpResponse).genHttpHeader.moreHeader =
      ({ r with moreHeader := setHeaders calls } : HttpResponse).policed.moreHeader := rfl
  rw [done, HttpResponse.policed]
  by_cases has : HttpResponse.hasCacheControl (setHeaders calls) = true
  · rw [if_pos has]
    refine ⟨fun name other => ?_,kept.cookies,kept.once⟩
    rw [kept.last name other]
    by_cases policy : equalsIgnoreCase name (bytes "Cache-Control") = true
    · obtain ⟨h,inside,same⟩ := List.any_eq_true.mp has
      have named : folded h.1 = folded name := (sameFolded.mp same).trans (sameFolded.mp policy).symm
      have shown : (headerValue calls.reverse name).isSome := by
        rw [← kept.last name other, headerValue, Option.isSome_map, List.find?_isSome]
        exact ⟨h,inside,sameFolded.mpr named⟩
      obtain ⟨value,set⟩ := Option.isSome_iff_exists.mp shown
      rw [set, Option.some_or]
    · rw [if_neg policy, Option.or_none]
  · rw [if_neg has]
    have next := keptAll (calls ++ [(bytes "Cache-Control",bytes "no-cache")])
    rw [setHeaders, List.foldl_concat] at next
    refine ⟨fun name other => ?_,?_,next.once⟩
    · have value := next.last name other
      rw [List.reverse_concat, headerValueCons] at value
      refine value.trans ?_
      by_cases policy : equalsIgnoreCase name (bytes "Cache-Control") = true
      · have absent : headerValue calls.reverse name = none := by
          rw [← kept.last name other, headerValue, Option.map_eq_none_iff, List.find?_eq_none]
          intro h inside same
          exact has (List.any_eq_true.mpr ⟨h,inside,sameFolded.mpr ((sameFolded.mp same).trans (sameFolded.mp policy))⟩)
        rw [if_pos (sameFolded.mp policy).symm, absent, Option.none_or, if_pos policy]
      · rw [if_neg fun same => policy (sameFolded.mpr same.symm), if_neg policy, Option.or_none]
    · have cookies := next.cookies
      have none' : [(bytes "Cache-Control",bytes "no-cache")].filter isCookie = [] := by decide
      rw [List.filter_append, none', List.append_nil] at cookies
      exact cookies

theorem sanePoliced (sane : Sane r) : Sane r.policed := by
  rw [HttpResponse.policed]
  split
  · exact sane
  · exact saneSetHeader sane ⟨by decide,by decide,by decide,by decide⟩

theorem connectionLines (r : HttpResponse) : bytes "Connection: " ++ r.connectionText =
    (if r.keepAlive then
      [(bytes "Connection",bytes "keep-alive"),
        (bytes "keep-alive",bytes "max=" ++ numberText r.keepAliveCount ++ bytes ", timeout=" ++ numberText r.keepAliveTime)]
      else [(bytes "Connection",bytes "close")]).flatMap HttpResponse.headerLine := by
  have name : bytes "Connection: " = bytes "Connection" ++ bytes ": " := rfl
  have first : bytes "keep-alive: max=" = bytes "keep-alive" ++ (bytes ": " ++ bytes "max=") := rfl
  rw [HttpResponse.connectionText, name, first]
  split <;> simp only [List.flatMap_cons, List.flatMap_nil, HttpResponse.headerLine, List.append_assoc, List.append_nil]

theorem headLines (sane : Sane r) : r.genHttpHeader.headerBuffer =
    r.policed.statusLine ++ crlf ++ (r.policed.fields.flatMap HttpResponse.headerLine ++ crlf) := by
  have built : r.genHttpHeader.headerBuffer = r.policed.headerBuffer ++ bytes "HTTP/1.1 " ++ numberText r.policed.retCode ++
      bytes " " ++ httpRetCode2StatusString r.policed.retCode ++ (crlf ++ bytes "Connection: ") ++
      r.policed.connectionText ++ r.policed.moreHeader.flatMap HttpResponse.headerLine ++
      (bytes "Content-type: " ++ r.policed.contentType ++ crlf) ++
      (bytes "Content-length: " ++ decimalText r.policed.contentLength ++ crlf ++ crlf) := rfl
  have lines := connectionLines r.policed
  rw [built, (sanePoliced sane).buffer, HttpResponse.fields, List.flatMap_append, List.flatMap_append, ← lines,
    HttpResponse.statusLine]
  have type : bytes "Content-type: " = bytes "Content-type" ++ bytes ": " := rfl
  have length : bytes "Content-length: " = bytes "Content-length" ++ bytes ": " := rfl
  have blank' : bytes " " = [HttpRequest.space] := rfl
  simp only [type, length, blank', List.flatMap_cons, List.flatMap_nil, HttpResponse.headerLine, List.append_assoc,
    List.append_nil, List.nil_append, List.cons_append]

theorem fieldsClean (sane : Sane r) : ∀ h ∈ r.fields, lineFeed ∉ h.1 ∧ colon ∉ h.1 ∧ lineFeed ∉ h.2 := by
  have digits (v : Int) : lineFeed ∉ numberText v := numberClean v (by decide) (by decide)
  have timeout : lineFeed ∉ bytes "max=" ++ numberText r.keepAliveCount ++ bytes ", timeout=" ++
      numberText r.keepAliveTime := by
    simp only [List.mem_append, not_or]
    exact ⟨⟨⟨by decide,digits _⟩,by decide⟩,digits _⟩
  intro h inside
  simp only [HttpResponse.fields, List.mem_append, List.mem_cons, List.not_mem_nil, or_false] at inside
  rcases inside with (connection | more) | rfl | rfl
  · split at connection
    · simp only [List.mem_cons, List.not_mem_nil, or_false] at connection
      rcases connection with rfl | rfl
      · exact ⟨by decide,by decide,by decide⟩
      · exact ⟨show lineFeed ∉ bytes "keep-alive" by decide,show colon ∉ bytes "keep-alive" by decide,timeout⟩
    · rw [List.mem_singleton] at connection
      subst connection
      exact ⟨by decide,by decide,by decide⟩
  · exact ⟨(sane.headers h more).name,(sane.headers h more).noColon,(sane.headers h more).value⟩
  · exact ⟨show lineFeed ∉ bytes "Content-type" by decide,show colon ∉ bytes "Content-type" by decide,sane.contentType⟩
  · exact ⟨show lineFeed ∉ bytes "Content-length" by decide,show colon ∉ bytes "Content-length" by decide,
      decimalClean _ (by decide)⟩

theorem digitsTrimmed (n : Nat) : trim (decimalText n) = decimalText n := by
  have each : ∀ c ∈ decimalText n, blank c = false := fun c inside => by
    have digit := List.all_eq_true.mp (decimalDigits n) c inside
    by_contra isBlank
    simp only [Bool.not_eq_false, blank, decide_eq_true_eq] at isBlank
    rcases isBlank with rfl | rfl <;> exact absurd digit (by decide)
  exact trimPlain (fun c first => each c (List.mem_of_mem_head? first)) fun c last => each c (List.mem_of_mem_getLast? last)

theorem fieldsAnnounce (sane : Sane r) : announced (r.fields.map fun h => (h.1,trim h.2)) = some r.contentLength := by
  have mine : ∀ h ∈ r.moreHeader, framing h.1 = false := fun h inside => (sane.headers h inside).framing
  have front : (if r.keepAlive then
      [(bytes "Connection",bytes "keep-alive"),
        (bytes "keep-alive",bytes "max=" ++ numberText r.keepAliveCount ++ bytes ", timeout=" ++ numberText r.keepAliveTime)]
      else [(bytes "Connection",bytes "close")]).filter (framing ·.1) = [] := by
    have names : framing (bytes "Connection") = false ∧ framing (bytes "keep-alive") = false := by decide
    split <;> simp [names]
  have only : (r.fields.map fun h => (h.1,trim h.2)).filter (framing ·.1) =
      [(bytes "Content-length",decimalText r.contentLength)] := by
    have type : framing (bytes "Content-type") = false := by decide
    have length : framing (bytes "Content-length") = true := by decide
    rw [List.filter_map]
    change (r.fields.filter (framing ·.1)).map _ = _
    rw [HttpResponse.fields, List.filter_append, List.filter_append, front, List.filter_eq_nil_iff.mpr]
    · simp [type, length, digitsTrimmed]
    · intro h inside
      simp [mine h inside]
  have name : equalsIgnoreCase (bytes "Content-length") (bytes "Content-Length") = true := by decide
  rw [announced, only]
  simp only [name, if_true, decimalNumeral]

theorem statusTaken (r : HttpResponse) :
    takeStatus r.statusLine = some (r.retCode,httpRetCode2StatusString r.retCode) := by
  have front : (bytes "HTTP/1.1 ").isPrefixOf r.statusLine = true := by
    rw [List.isPrefixOf_iff_prefix]
    exact List.prefix_append _ _
  have code : HttpRequest.space ∉ numberText r.retCode := numberClean _ (by decide) (by decide)
  have rest : r.statusLine.drop 9 = numberText r.retCode ++ HttpRequest.space :: httpRetCode2StatusString r.retCode := rfl
  rw [takeStatus, if_pos front, rest, splitSome code]
  simp [numberNumeral]

theorem sentLength {p : PartialResponse.Response} {file : Bytes} (small : file.length ≤ int32Max)
    (cached : p.cached = file.length) (range : p.partialFrom = 0 ∧ p.partialTo = 0 ∨
      0 ≤ p.partialFrom ∧ p.partialFrom ≤ p.partialTo ∧ p.partialTo < file.length) :
    (p.sent file).length = p.contentLength := by
  have limit : int32Max = 2147483647 := rfl
  simp only [PartialResponse.Response.sent, PartialResponse.Response.contentLength, toSize]
  by_cases partly : p.isPartial
  · have ends : p.partialFrom ≠ 0 ∨ p.partialTo ≠ 0 := partly
    simp only [if_pos partly]
    rw [if_pos (by omega), List.length_take, List.length_drop]
    omega
  · simp only [if_neg partly, cached]
    split
    · rw [List.length_take, List.length_drop]
      omega
    · rw [List.length_nil]
      omega

theorem bodyLength (sane : Sane r) : (r.body false).length = r.contentLength := by
  rw [HttpResponse.body, HttpResponse.contentLength, if_neg Bool.false_ne_true]
  cases cached : r.pCache with
  | none => rfl
  | some o => exact sentLength o.small rfl (sane.range o cached)

theorem writtenRead (sane : Sane r) (head : Bool) (rest : Bytes) :
    readResponse head (r.genHttpHeader.written head ++ rest) = some (r.genHttpHeader.received head,rest) := by
  have safe := sanePoliced sane
  have status : lineFeed ∉ r.policed.statusLine := by
    simp only [HttpResponse.statusLine, List.mem_append, List.mem_cons, not_or]
    exact ⟨by decide,numberClean _ (by decide) (by decide),by decide,reasonClean _⟩
  have length : (if head then 0 else r.policed.contentLength) = (r.policed.body head).length := by
    cases head with
    | false => exact (bodyLength safe).symm
    | true => rfl
  have stream : r.genHttpHeader.written head ++ rest = r.policed.statusLine ++ crlf ++
      (r.policed.fields.flatMap HttpResponse.headerLine ++ crlf ++ (r.policed.body head ++ rest)) := by
    rw [HttpResponse.written, headLines sane]
    simp only [List.append_assoc]
    rfl
  rw [stream, readResponse, takeLineFront status]
  simp only [Option.bind_eq_bind, Option.bind_some, statusTaken, takeFieldsAll (fieldsClean safe), fieldsAnnounce safe, length]
  rw [if_pos (by simp), List.take_left, List.drop_left]
  rfl

example : (({ HttpResponse.fresh 100 60 with retCode := 404, contentBuffer := bytes "gone" }).genHttpHeader.written false) =
    bytes "HTTP/1.1 404 Not Found\x0d\x0aConnection: close\x0d\x0aCache-Control: no-cache\x0d\x0a" ++
      bytes "Content-type: text/html\x0d\x0aContent-length: 4\x0d\x0a\x0d\x0agone" := by decide

theorem allRead {answers : List (HttpResponse × Bool)}
    (sane : ∀ a ∈ answers, ∃ r, Sane r ∧ a.1 = r.genHttpHeader) :
    readResponses (answers.map Prod.snd) (answers.flatMap fun a => a.1.written a.2) =
      some (answers.map fun a => a.1.received a.2) := by
  induction answers with
  | nil => rfl
  | cons a answers ih =>
    obtain ⟨⟨r,here,same⟩,later⟩ := List.forall_mem_cons.mp sane
    have first := writtenRead here a.2 (answers.flatMap fun a => a.1.written a.2)
    rw [← same] at first
    rw [List.map_cons, List.flatMap_cons, readResponses, first]
    simp only [Option.bind_eq_bind, Option.bind_some, ih later, List.map_cons]

end Reading

end Uco.ResponseHead
