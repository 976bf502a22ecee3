import Uco.PlainRequest
import Uco.ResponseHead
import Uco.TrailingSlash

/-! HttpConnection: what the calls of a handler chain leave in the response, how HandleRequest
and Process complete it, and what is written over all requests of a connection. -/
namespace Uco.HttpConnection
open HttpRequest (Request HttpState RequestHead lineFeed)
open StaticPath (pathJoin httpMethodStr2Enum)
open HttpSession (SetCookie)
open Cookie (SameSite setCookie)
open Mustache (Data mustache)
open ResponseHead
open PlainRequest

section Context

structure HttpContext where
  rsp : HttpResponse
  hasSetRspContent : Bool

def HttpContext.new (rsp : HttpResponse) : HttpContext := ⟨rsp,false⟩

namespace HttpContext

def overwrite (c : HttpContext) : HttpContext where
  rsp := if c.hasSetRspContent then c.rsp.resetContent else c.rsp
  hasSetRspContent := true

def write (c : HttpContext) (change : HttpResponse → HttpResponse) : HttpContext :=
  { c.overwrite with rsp := change c.overwrite.rsp }

def json (c : HttpContext) (httpRetCode : Int) (message : Option Bytes) : HttpContext :=
  c.write fun r =>
    let r := { r with contentType := pathSuffix2FileType (bytes ".json"), retCode := httpRetCode }
    match message with
    | some json => { r with contentBuffer := r.contentBuffer ++ json }
    | none => r.setShouldGenErrorPage 500

def data (c : HttpContext) (httpRetCode : Int) (contentType data : Bytes) : HttpContext :=
  c.write fun r =>
    { r with contentType := contentType, retCode := httpRetCode, contentBuffer := r.contentBuffer ++ data }

def string (c : HttpContext) (httpRetCode : Int) (msg : Bytes) : HttpContext :=
  c.data httpRetCode (pathSuffix2FileType (bytes ".txt")) msg

def status (c : HttpContext) (httpRetCode : Int) : HttpContext := { c with rsp := { c.rsp with retCode := httpRetCode } }

def isTemplateHTML (templatePath : Bytes) : Bool :=
  4 < templatePath.length && ((bytes ".html").isSuffixOf templatePath || (bytes ".tmpl").isSuffixOf templatePath ||
    (bytes ".tpl").isSuffixOf templatePath)

def html (c : HttpContext) (httpRetCode : Int) (htmlPath : Bytes) : HttpContext :=
  c.write fun r =>
    { r with contentType := pathSuffix2FileType (bytes ".html"), retCode := httpRetCode, staticResourcePath := htmlPath }

def htmlTemplate (c : HttpContext) (httpRetCode : Int) (templatePath : Bytes) (args : Data) : HttpContext :=
  if isTemplateHTML templatePath then
    c.write fun r =>
      { r with
        contentType := pathSuffix2FileType (bytes ".html")
        retCode := httpRetCode
        staticResourcePath := templatePath
        templateArgs := args
        resourceIsTemplate := true }
  else c.status 400

def file (c : HttpContext) (filepath : Bytes) : HttpContext := c.write fun r => { r with staticResourcePath := filepath }

def genErrorPage (c : HttpContext) (httpRetCode : Int) : HttpContext :=
  c.write fun r => r.setShouldGenErrorPage httpRetCode

def setHeader (c : HttpContext) (key value : Bytes) : HttpContext := { c with rsp := c.rsp.setHeader key value }

def redirect (c : HttpContext) (httpRetCode : Int) (location : Bytes) : HttpContext :=
  (c.write fun r => { r with retCode := httpRetCode }).setHeader (bytes "Location") location

def setCookie (c : HttpContext) (cookie : SetCookie) (sameSite : SameSite) : HttpContext :=
  c.setHeader (bytes "Set-Cookie") (Cookie.setCookie cookie sameSite)

end HttpContext

inductive Call where
  | json (httpRetCode : Int) (message : Option Bytes)
  | string (httpRetCode : Int) (msg : Bytes)
  | data (httpRetCode : Int) (contentType body : Bytes)
  | html (httpRetCode : Int) (htmlPath : Bytes)
  | htmlTemplate (httpRetCode : Int) (templatePath : Bytes) (args : Data)
  | file (filepath : Bytes)
  | genErrorPage (httpRetCode : Int)
  | redirect (httpRetCode : Int) (location : Bytes)
  | status (httpRetCode : Int)
  | setHeader (key value : Bytes)
  | setCookie (cookie : SetCookie) (sameSite : SameSite)

def Call.run (c : HttpContext) : Call → HttpContext
  | .json httpRetCode message => c.json httpRetCode message
  | .string httpRetCode msg => c.string httpRetCode msg
  | .data httpRetCode contentType body => c.data httpRetCode contentType body
  | .html httpRetCode htmlPath => c.html httpRetCode htmlPath
  | .htmlTemplate httpRetCode templatePath args => c.htmlTemplate httpRetCode templatePath args
  | .file filepath => c.file filepath
  | .genErrorPage httpRetCode => c.genErrorPage httpRetCode
  | .redirect httpRetCode location => c.redirect httpRetCode location
  | .status httpRetCode => c.status httpRetCode
  | .setHeader key value => c.setHeader key value
  | .setCookie cookie sameSite => c.setCookie cookie sameSite

structure Chain where
  calls : List Call
  thrown : Bool

end Context

section Model

inductive Resource where
  | opened (o : Opened)
  | failed (code : Int)

structure Server where
  routes : TrailingSlash.Server Chain
  resourceDir : Bytes
  getResource : Bytes → Resource
  errorPagePath : Int → Bytes
  errorTemplatePath : Bytes

variable (fuel : Nat) (server : Server)

/- HttpResponse::GenErrorPage: without the template the page stays empty. -/
def genTemplatePage (r : HttpResponse) (code : Int) : Option HttpResponse :=
  let r := { r with staticResourcePath := [], pCache := none, contentType := pathSuffix2FileType (bytes ".html") }
  match server.getResource (pathJoin server.resourceDir server.errorTemplatePath) with
  | .failed _ => some r
  | .opened o =>
    match o.read with
    | none => some r
    | some buffer =>
      let d := Data.object [(bytes "code",.string (RespRoundTrip.numberText code)),
        (bytes "message",.string (httpRetCode2StatusString code))]
      (mustache fuel buffer d).map fun page => { r with contentBuffer := page }

/- HttpConnection::GenErrorPage: the registered page, else the template, else the built-in page. -/
def genErrorPage (r : HttpResponse) (code : Int) : Option HttpResponse :=
  let r := { r.reset with retCode := code }
  let other := if server.errorTemplatePath = [] then some (r.genErrorPageDefault code) else genTemplatePage fuel server r code
  if server.errorPagePath code = [] then other
  else
    match server.getResource (pathJoin server.resourceDir (server.errorPagePath code)) with
    | .opened o => some { r with contentType := pathSuffix2FileType (bytes ".html"), pCache := some o }
    | .failed _ => other

def serveRange (request : Request) (o : Opened) (r : HttpResponse) : Option HttpResponse :=
  match request.mapHeader[bytes "Range"]? with
  | none => some r
  | some value =>
    match PartialResponse.handleRange value o.file.length r.moreHeader with
    | .errorPage code => genErrorPage fuel server r code
    | .overflow => none
    | .partialContent p =>
      some { r with partialFrom := p.partialFrom, partialTo := p.partialTo, moreHeader := p.moreHeader, retCode := p.retCode }

def serveResource (request : Request) (r : HttpResponse) : Option HttpResponse :=
  if r.staticResourcePath = [] then some r
  else
    match server.getResource (pathJoin server.resourceDir r.staticResourcePath) with
    | .failed code => genErrorPage fuel server r code
    | .opened o =>
      if r.resourceIsTemplate then
        match o.read with
        | none => genErrorPage fuel server r 500
        | some buffer => (mustache fuel buffer r.templateArgs).map fun page => { r with contentBuffer := page }
      else serveRange fuel server request o { r with contentType := getFileTypeByPath r.staticResourcePath, pCache := some o }

def complete (request : Request) (r : HttpResponse) : Option HttpResponse :=
  (serveResource fuel server request r).bind fun r =>
    if r.shouldGenErrorPage then genErrorPage fuel server r r.retCode else some r

def runHandlers (chain : Chain) (r : HttpResponse) : HttpResponse :=
  let r := (chain.calls.foldl Call.run (.new r)).rsp
  if chain.thrown then ({ r with keepAlive := false } : HttpResponse).setShouldGenErrorPage 500 else r

def handleRequest (request : Request) (r : HttpResponse) : Option HttpResponse :=
  let r := { r with retCode := 200, keepAlive := request.keepAlive, contentType := bytes "text/html" }
  match TrailingSlash.handleRequest server.routes request.method request.path with
  | .redirect location => some (({ r with retCode := 301 } : HttpResponse).setHeader (bytes "Location") location)
  | .errorPage 400 => genErrorPage fuel server { r with keepAlive := false } 400
  | .errorPage code => (genErrorPage fuel server r code).bind (complete fuel server request)
  | .handled _ chain _ => complete fuel server request (runHandlers chain r)

def prepare (state : HttpState) (request : Request) (r : HttpResponse) : Option HttpResponse :=
  match state with
  | .bad => genErrorPage fuel server { r with keepAlive := false } 400
  | _ => handleRequest fuel server request r

def process (state : HttpState) (request : Request) (r : HttpResponse) : Option HttpResponse :=
  (prepare fuel server state request r).map HttpResponse.genHttpHeader

def isHead (request : Request) : Bool := httpMethodStr2Enum request.method = .head

/- ServeHttpClient where every write goes through: the chunks are what the reads give, the result are the
responses with the kind of their requests. Every request meets its own handlers and files; behind it
both objects are reset, so that what the handlers took of the body is gone in any case. -/
def serveHttpClient (world : Nat → Server) (reqCount : Nat) (request : Request) (r : HttpResponse) :
    List Bytes → Option (List (HttpResponse × Bool))
  | [] => some []
  | chunk :: rest =>
    match HttpRequest.parse (HttpRequest.receive request chunk) with
    | (.incomplete, request) => serveHttpClient world reqCount request r rest
    | (state, request) =>
      match process fuel (world reqCount) state request r with
      | none => none
      | some done =>
        if done.keepAlive ∧ (reqCount + 1 : Int) < done.keepAliveCount then
          (serveHttpClient world (reqCount + 1) (KeepAlive.reset request) done.reset rest).map
            ((done,isHead request) :: ·)
        else some [(done,isHead request)]

end Model

section LastWrite

structure Content where
  contentBuffer : Bytes
  staticResourcePath : Bytes
  resourceIsTemplate : Bool
  templateArgs : Data
  shouldGenErrorPage : Bool
  pCache : Option Opened

def HttpContext.content (c : HttpContext) : Content :=
  ⟨c.rsp.contentBuffer,c.rsp.staticResourcePath,c.rsp.resourceIsTemplate,c.rsp.templateArgs,c.rsp.shouldGenErrorPage,
    c.rsp.pCache⟩

def noContent : Content := ⟨[],[],false,.object [],false,none⟩

def Call.writes : Call → Bool
  | .htmlTemplate _ templatePath _ => HttpContext.isTemplateHTML templatePath
  | .status _ | .setHeader _ _ | .setCookie _ _ => false
  | _ => true

def Unwritten (c : HttpContext) : Prop := c.hasSetRspContent = false → c.content = noContent

variable {c : HttpContext} {call : Call}

theorem overwriteContent (unwritten : Unwritten c) : c.overwrite.content = noContent := by
  cases written : c.hasSetRspContent with
  | false =>
    have empty := unwritten written
    simpa [HttpContext.content, HttpContext.overwrite, written] using empty
  | true =>
    simp only [HttpContext.content, HttpContext.overwrite, written, if_true]
    rfl

theorem writeContent {c c' : HttpContext} (unwritten : Unwritten c) (unwritten' : Unwritten c')
    (writes : call.writes = true) : (call.run c).content = (call.run c').content := by
  have both := (overwriteContent unwritten).trans (overwriteContent unwritten').symm
  simp only [HttpContext.content, Content.mk.injEq] at both
  obtain ⟨buffer,path,template,args,mark,cache⟩ := both
  cases call with
  | json httpRetCode message =>
    cases message <;>
      simp [Call.run, HttpContext.json, HttpContext.write, HttpContext.content, buffer, path, template, args, mark, cache,
        HttpResponse.setShouldGenErrorPage, HttpResponse.reset]
  | string httpRetCode msg =>
    simp [Call.run, HttpContext.string, HttpContext.data, HttpContext.write, HttpContext.content, buffer, path, template, args,
      mark, cache]
  | data httpRetCode contentType body =>
    simp [Call.run, HttpContext.data, HttpContext.write, HttpContext.content, buffer, path, template, args, mark, cache]
  | html httpRetCode htmlPath =>
    simp [Call.run, HttpContext.html, HttpContext.write, HttpContext.content, buffer, template, args, mark, cache]
  | htmlTemplate httpRetCode templatePath args =>
    have isTemplate : HttpContext.isTemplateHTML templatePath = true := writes
    simp [Call.run, HttpContext.htmlTemplate, isTemplate, HttpContext.write, HttpContext.content, buffer, mark, cache]
  | file filepath =>
    simp [Call.run, HttpContext.file, HttpContext.write, HttpContext.content, buffer, template, args, mark, cache]
  | genErrorPage httpRetCode =>
    simp [Call.run, HttpContext.genErrorPage, HttpContext.write, HttpContext.content,
      HttpResponse.setShouldGenErrorPage, HttpResponse.reset]
  | redirect httpRetCode location =>
    simp [Call.run, HttpContext.redirect, HttpContext.setHeader, HttpResponse.setHeader, HttpContext.write,
      HttpContext.content, buffer, path, template, args, mark, cache]
  | status => cases writes
  | setHeader => cases writes
  | setCookie => cases writes

theorem otherContent (other : call.writes = false) :
    (call.run c).content = c.content ∧ (call.run c).hasSetRspContent = c.hasSetRspContent := by
  cases call with
  | htmlTemplate httpRetCode templatePath args =>
    have isNone : HttpContext.isTemplateHTML templatePath = false := other
    simp only [Call.run, HttpContext.htmlTemplate, isNone]
    exact ⟨rfl,rfl⟩
  | status => exact ⟨rfl,rfl⟩
  | setHeader => exact ⟨rfl,rfl⟩
  | setCookie => exact ⟨rfl,rfl⟩
  | _ => cases other

theorem writeMarks (writes : call.writes = true) : (call.run c).hasSetRspContent = true := by
  cases call with
  | htmlTemplate httpRetCode templatePath args =>
    have isTemplate : HttpContext.isTemplateHTML templatePath = true := writes
    simp only [Call.run, HttpContext.htmlTemplate, isTemplate]
    rfl
  | status => cases writes
  | setHeader => cases writes
  | setCookie => cases writes
  | _ => rfl

theorem runUnwritten (unwritten : Unwritten c) (call : Call) : Unwritten (call.run c) := by
  intro fresh
  cases writes : call.writes with
  | true =>
    rw [writeMarks writes] at fresh
    cases fresh
  | false =>
    obtain ⟨content,written⟩ := otherContent (c := c) writes
    rw [content]
    exact unwritten (written ▸ fresh)

/- Of all that the handlers of a request write, their last write makes the answer, as if it had
been the only one. -/
theorem lastWriteShown (r : HttpResponse) (calls : List Call) :
    (calls.foldl Call.run (.new r.reset)).content =
      match (calls.filter Call.writes).getLast? with
      | none => noContent
      | some call => (call.run (.new r.reset)).content := by
  have start : Unwritten (.new r.reset) := fun _ => rfl
  have ends (calls : List Call) : Unwritten (calls.foldl Call.run (.new r.reset)) := by
    induction calls using List.reverseRecOn with
    | nil => exact start
    | append_singleton calls call ih =>
      rw [List.foldl_concat]
      exact runUnwritten ih call
  induction calls using List.reverseRecOn with
  | nil => rfl
  | append_singleton calls call ih =>
    rw [List.foldl_concat, List.filter_append, List.filter_cons, List.filter_nil]
    cases writes : call.writes with
    | true =>
      simp only [if_true, List.getLast?_concat]
      exact writeContent (ends calls) start writes
    | false =>
      simp only [Bool.false_eq_true, if_false, List.append_nil]
      exact (otherContent writes).1.trans ih

end LastWrite

section Answers

def CleanCall : Call → Prop
  | .data _ contentType _ => lineFeed ∉ contentType
  | .redirect _ location => lineFeed ∉ location
  | .setHeader key value => CleanHeader (key,value)
  | .setCookie cookie _ => lineFeed ∉ cookie.name ∧ lineFeed ∉ cookie.path ∧ lineFeed ∉ cookie.domain
  | _ => True

structure Unsent (r : HttpResponse) : Prop where
  headers : ∀ h ∈ r.moreHeader, CleanHeader h
  contentType : lineFeed ∉ r.contentType
  buffer : r.headerBuffer = []
  first : r.partialFrom = 0
  last : r.partialTo = 0

structure Hosted (fuel : Nat) (server : Server) : Prop where
  clean : ∀ method path chain, server.routes.findHandles method path = some chain → ∀ call ∈ chain.calls, CleanCall call
  ends : ∀ path o text data, server.getResource path = .opened o → o.read = some text → (mustache fuel text data).isSome
  room : ∀ path o, server.getResource path = .opened o → o.file.length + 262144 ≤ 2147483648

variable {r : HttpResponse} {fuel : Nat} {server : Server} {request : Request}

theorem Unsent.sane (unsent : Unsent r) : Sane r :=
  ⟨unsent.headers,unsent.contentType,unsent.buffer,fun _ _ => .inl ⟨unsent.first,unsent.last⟩⟩

theorem bareUnsent (headers : r.moreHeader = []) (type : r.contentType = pathSuffix2FileType (bytes ".html"))
    (buffer : r.headerBuffer = []) (first : r.partialFrom = 0) (last : r.partialTo = 0) : Unsent r := by
  refine ⟨fun h inside => ?_,type ▸ fileTypeClean _,buffer,first,last⟩
  rw [headers] at inside
  cases inside

theorem namedClean {name value : Bytes} (known : lineFeed ∉ name ∧ HttpRequest.colon ∉ name ∧ framing name = false)
    (clean : lineFeed ∉ value) : CleanHeader (name,value) := ⟨known.1,known.2.1,clean,known.2.2⟩

theorem Unsent.setHeader (unsent : Unsent r) {key value : Bytes} (clean : CleanHeader (key,value)) :
    Unsent (r.setHeader key value) := by
  refine ⟨fun h inside => ?_,unsent.contentType,unsent.buffer,unsent.first,unsent.last⟩
  rcases memSetHeader inside with rfl | old
  · exact clean
  · exact unsent.headers h old

theorem overwriteUnsent {c : HttpContext} (unsent : Unsent c.rsp) : Unsent c.overwrite.rsp := by
  unfold HttpContext.overwrite
  simp only
  split
  · exact ⟨unsent.headers,unsent.contentType,unsent.buffer,unsent.first,unsent.last⟩
  · exact unsent

theorem ageText (n : Nat) : bytes (toString (n : Int)) = Resp.decimalText n := by
  have text : toString (n : Int) = String.ofList (Nat.toDigits 10 n) := rfl
  have ascii : ∀ c ∈ Nat.toDigits 10 n, c.utf8Size = 1 := fun c inside => by
    have digit := Nat.isDigit_of_mem_toDigits (by decide) (by decide) inside
    simp only [Char.isDigit, Bool.and_eq_true, decide_eq_true_eq] at digit
    have small : c.val ≤ 127 := UInt32.le_trans digit.2 (by decide)
    rw [Char.utf8Size]
    exact if_pos small
  rw [text, bytesAscii ascii, Resp.decimalText]

theorem ageClean (maxAge : Int) : lineFeed ∉ Cookie.maxAgeText maxAge := by
  rw [Cookie.maxAgeText]
  split
  · rename_i positive
    obtain ⟨n,rfl⟩ := Int.eq_ofNat_of_zero_le (Int.le_of_lt positive)
    rw [List.mem_append, not_or, ageText]
    exact ⟨by decide,decimalClean n (by decide)⟩
  · split <;> decide

theorem cookieClean {cookie : SetCookie} (clean : lineFeed ∉ cookie.name ∧ lineFeed ∉ cookie.path ∧ lineFeed ∉ cookie.domain)
    (sameSite : SameSite) : CleanHeader (bytes "Set-Cookie",setCookie cookie sameSite) := by
  obtain ⟨name,path,domain⟩ := clean
  have value : lineFeed ∉ Ustring.urlEncode cookie.value := fun inside => by
    rcases Ustring.encodedClean inside with plain | percent
    · exact absurd plain (by decide)
    · exact absurd percent (by decide)
  refine namedClean (by decide) ?_
  simp only [setCookie, Cookie.pair, List.mem_append, List.mem_cons, not_or]
  refine ⟨⟨⟨⟨⟨⟨⟨⟨name,by decide,value⟩,by decide⟩,?_⟩,?_⟩,ageClean _⟩,?_⟩,?_⟩,?_⟩
  · split
    · decide
    · exact path
  · split
    · exact List.not_mem_nil
    · rw [List.mem_append, not_or]
      exact ⟨by decide,domain⟩
  · split <;> decide
  · split <;> decide
  · cases sameSite <;> decide

theorem locationClean {location : Bytes} (clean : lineFeed ∉ location) : CleanHeader (bytes "Location",location) :=
  namedClean (by decide) clean

theorem runUnsent {c : HttpContext} {call : Call} (unsent : Unsent c.rsp) (clean : CleanCall call) :
    Unsent (call.run c).rsp := by
  have cleared := overwriteUnsent unsent
  have page (contentType : Bytes) (noFeed : lineFeed ∉ contentType) (r : HttpResponse)
      (kept : r.moreHeader = c.overwrite.rsp.moreHeader ∧ r.contentType = contentType ∧
        r.headerBuffer = c.overwrite.rsp.headerBuffer ∧ r.partialFrom = c.overwrite.rsp.partialFrom ∧
        r.partialTo = c.overwrite.rsp.partialTo) : Unsent r := by
    obtain ⟨headers,type,buffer,first,last⟩ := kept
    exact ⟨headers ▸ cleared.headers,type ▸ noFeed,buffer.trans cleared.buffer,first.trans cleared.first,last.trans cleared.last⟩
  cases call with
  | json httpRetCode message =>
    cases message with
    | none => exact bareUnsent rfl rfl rfl rfl rfl
    | some json => exact page _ (fileTypeClean (bytes ".json")) _ ⟨rfl,rfl,rfl,rfl,rfl⟩
  | string httpRetCode msg => exact page _ (fileTypeClean (bytes ".txt")) _ ⟨rfl,rfl,rfl,rfl,rfl⟩
  | data httpRetCode contentType body => exact page _ clean _ ⟨rfl,rfl,rfl,rfl,rfl⟩
  | html httpRetCode htmlPath => exact page _ (fileTypeClean (bytes ".html")) _ ⟨rfl,rfl,rfl,rfl,rfl⟩
  | htmlTemplate httpRetCode templatePath args =>
    simp only [Call.run, HttpContext.htmlTemplate]
    split
    · exact page _ (fileTypeClean (bytes ".html")) _ ⟨rfl,rfl,rfl,rfl,rfl⟩
    · exact ⟨unsent.headers,unsent.contentType,unsent.buffer,unsent.first,unsent.last⟩
  | file filepath => exact page _ cleared.contentType _ ⟨rfl,rfl,rfl,rfl,rfl⟩
  | genErrorPage httpRetCode => exact bareUnsent rfl rfl rfl rfl rfl
  | redirect httpRetCode location =>
    exact (page _ cleared.contentType { c.overwrite.rsp with retCode := httpRetCode } ⟨rfl,rfl,rfl,rfl,rfl⟩).setHeader
      (locationClean clean)
  | status httpRetCode => exact ⟨unsent.headers,unsent.contentType,unsent.buffer,unsent.first,unsent.last⟩
  | setHeader key value => exact unsent.setHeader clean
  | setCookie cookie sameSite => exact unsent.setHeader (cookieClean clean sameSite)

theorem handlersUnsent {chain : Chain} (unsent : Unsent r) (clean : ∀ call ∈ chain.calls, CleanCall call) :
    Unsent (runHandlers chain r) := by
  have ran : ∀ (calls : List Call) (c : HttpContext), Unsent c.rsp → (∀ call ∈ calls, CleanCall call) →
      Unsent (calls.foldl Call.run c).rsp := by
    intro calls
    induction calls with
    | nil => exact fun _ unsent _ => unsent
    | cons call calls ih =>
      intro c unsent clean
      obtain ⟨first,later⟩ := List.forall_mem_cons.mp clean
      exact ih _ (runUnsent unsent first) later
  unfold runHandlers
  simp only
  split
  · exact bareUnsent rfl rfl rfl rfl rfl
  · exact ran _ _ unsent clean

theorem errorPageMade (hosted : Hosted fuel server) (r : HttpResponse) (code : Int) :
    ∃ page, genErrorPage fuel server r code = some page ∧ Unsent page := by
  have other : ∃ page, (if server.errorTemplatePath = [] then some (HttpResponse.genErrorPageDefault { r.reset with retCode := code } code)
      else genTemplatePage fuel server { r.reset with retCode := code } code) = some page ∧ Unsent page := by
    split
    · exact ⟨_,rfl,bareUnsent rfl rfl rfl rfl rfl⟩
    · unfold genTemplatePage
      simp only
      split
      · exact ⟨_,rfl,bareUnsent rfl rfl rfl rfl rfl⟩
      · rename_i o opened
        split
        · exact ⟨_,rfl,bareUnsent rfl rfl rfl rfl rfl⟩
        · rename_i text read
          obtain ⟨page,rendered⟩ := Option.isSome_iff_exists.mp (hosted.ends _ o text _ opened read)
          rw [rendered]
          exact ⟨_,rfl,bareUnsent rfl rfl rfl rfl rfl⟩
  unfold genErrorPage
  simp only
  split
  · exact other
  · split
    · exact ⟨_,rfl,bareUnsent rfl rfl rfl rfl rfl⟩
    · exact other

theorem rangeMade (hosted : Hosted fuel server) {o : Opened} (small : o.file.length + 262144 ≤ 2147483648)
    (unsent : Unsent r) (cached : r.pCache = some o) :
    ∃ done, serveRange fuel server request o r = some done ∧ Sane done := by
  unfold serveRange
  split
  · exact ⟨r,rfl,unsent.sane⟩
  · rename_i value found
    rcases parsed : ByteRange.parseRange value (ByteRange.toSize (o.file.length : Int)) with ⟨accepted,f,t⟩
    cases accepted with
    | false =>
      simp only [PartialResponse.handleRange, parsed]
      obtain ⟨page,made,clean⟩ := errorPageMade hosted r 400
      exact ⟨page,made,clean.sane⟩
    | true =>
      have size : ByteRange.toSize (o.file.length : Int) = o.file.length := PartialResponse.toSizeNat (by omega)
      obtain ⟨low,order,high⟩ := ByteRange.acceptedInside (by omega) (size ▸ parsed)
      rw [PartialResponse.handled parsed, if_pos (by unfold PartialResponse.chunksz; omega)]
      have accept : CleanHeader (bytes "Accept-Ranges",bytes "bytes") := namedClean (by decide) (by decide)
      have text : lineFeed ∉ PartialResponse.rangeText f (min t (f + PartialResponse.chunksz - 1)) o.file.length := by
        have digits (v : Int) : lineFeed ∉ RespRoundTrip.numberText v := numberClean v (by decide) (by decide)
        simp only [PartialResponse.rangeText, List.mem_append, List.mem_cons, not_or]
        exact ⟨⟨⟨by decide,digits _⟩,by decide,digits _⟩,by decide,digits _⟩
      have headers := ((unsent.setHeader accept).setHeader (namedClean (by decide : _ ∧ _ ∧
        framing (bytes "Content-Range") = false) text)).headers
      refine ⟨_,rfl,headers,unsent.contentType,unsent.buffer,fun o' same => ?_⟩
      have mine : o' = o := Option.some.inj (same.symm.trans cached)
      subst mine
      simp only [PartialResponse.chunksz]
      omega

theorem resourceMade (hosted : Hosted fuel server) (unsent : Unsent r) :
    ∃ done, serveResource fuel server request r = some done ∧ Sane done := by
  have page (code : Int) : ∃ done, genErrorPage fuel server r code = some done ∧ Sane done := by
    obtain ⟨done,made,clean⟩ := errorPageMade hosted r code
    exact ⟨done,made,clean.sane⟩
  unfold serveResource
  split
  · exact ⟨r,rfl,unsent.sane⟩
  · split
    · exact page _
    · rename_i o opened
      split
      · split
        · exact page 500
        · rename_i text read
          obtain ⟨shown,rendered⟩ := Option.isSome_iff_exists.mp (hosted.ends _ o text r.templateArgs opened read)
          rw [rendered]
          exact ⟨_,rfl,unsent.headers,unsent.contentType,unsent.buffer,fun _ _ => .inl ⟨unsent.first,unsent.last⟩⟩
      · exact rangeMade hosted (hosted.room _ o opened)
          ⟨unsent.headers,pathTypeClean _,unsent.buffer,unsent.first,unsent.last⟩ rfl

theorem completeMade (hosted : Hosted fuel server) (unsent : Unsent r) :
    ∃ done, complete fuel server request r = some done ∧ Sane done := by
  obtain ⟨served,made,sane⟩ : ∃ served, serveResource fuel server request r = some served ∧ Sane served :=
    resourceMade hosted unsent
  rw [complete, made, Option.bind_some]
  split
  · obtain ⟨done,page,clean⟩ := errorPageMade hosted served served.retCode
    exact ⟨done,page,clean.sane⟩
  · exact ⟨served,rfl,sane⟩

theorem handledRoute {routes : TrailingSlash.Server Chain} {method path path' : Bytes} {chain : Chain}
    {params : TrailingSlash.QueryMap} (answer : TrailingSlash.handleRequest routes method path = .handled path' chain params) :
    routes.findHandles (httpMethodStr2Enum method) path' = some chain := by
  unfold TrailingSlash.handleRequest at answer
  split at answer
  · cases answer
  · simp only [TrailingSlash.dispatch] at answer
    split at answer
    · cases answer
    · split at answer
      · cases answer
      · rename_i found
        cases answer
        exact found

theorem redirectPath {routes : TrailingSlash.Server Chain} {method path location : Bytes}
    (answer : TrailingSlash.handleRequest routes method path = .redirect location) : location = path.dropLast := by
  unfold TrailingSlash.handleRequest at answer
  split at answer
  · cases answer
    rfl
  · exact absurd answer (TrailingSlash.dispatchStays _ _ location)

theorem prepareMade (hosted : Hosted fuel server) (unsent : Unsent r) (plain : PlainHead request.toRequestHead)
    (state : HttpState) : ∃ done, prepare fuel server state request r = some done ∧ Sane done := by
  have page (r : HttpResponse) (code : Int) : ∃ done, genErrorPage fuel server r code = some done ∧ Sane done := by
    obtain ⟨done,made,clean⟩ := errorPageMade hosted r code
    exact ⟨done,made,clean.sane⟩
  have begun : Unsent { r with retCode := 200, keepAlive := request.keepAlive, contentType := bytes "text/html" } :=
    ⟨unsent.headers,show lineFeed ∉ bytes "text/html" by decide,unsent.buffer,unsent.first,unsent.last⟩
  have handled : ∃ done, handleRequest fuel server request r = some done ∧ Sane done := by
    unfold handleRequest
    simp only
    split
    · rename_i location answer
      have moved : Unsent { r with retCode := 301, keepAlive := request.keepAlive, contentType := bytes "text/html" } :=
        ⟨begun.headers,begun.contentType,begun.buffer,begun.first,begun.last⟩
      rw [redirectPath answer]
      exact ⟨_,rfl,(moved.setHeader (locationClean fun inside => plain.path.line (List.mem_of_mem_dropLast inside))).sane⟩
    · exact page _ 400
    · rename_i code _ _
      obtain ⟨first,made,clean⟩ := errorPageMade hosted
        { r with retCode := 200, keepAlive := request.keepAlive, contentType := bytes "text/html" } code
      rw [made, Option.bind_some]
      exact completeMade hosted clean
    · rename_i chain _ answer
      exact completeMade hosted (handlersUnsent begun (hosted.clean _ _ chain (handledRoute answer)))
  cases state with
  | bad => exact page _ 400
  | ok => exact handled
  | incomplete => exact handled

structure Served (done : List (HttpResponse × Bool)) : Prop where
  sane : ∀ a ∈ done, ∃ s, Sane s ∧ a.1 = s.genHttpHeader
  open' : ∀ a ∈ done.dropLast, a.1.keepAlive = true

theorem servedOne {s : HttpResponse} (sane : Sane s) (head : Bool) : Served [(s.genHttpHeader,head)] :=
  ⟨by simpa using ⟨s,sane,rfl⟩,by simp⟩

theorem servedMore {s : HttpResponse} (sane : Sane s) (head : Bool) (kept : s.genHttpHeader.keepAlive = true)
    {later : List (HttpResponse × Bool)} (served : Served later) : Served ((s.genHttpHeader,head) :: later) := by
  refine ⟨List.forall_mem_cons.mpr ⟨⟨s,sane,rfl⟩,served.sane⟩,?_⟩
  cases later with
  | nil => simp
  | cons a later =>
    rw [List.dropLast_cons_of_ne_nil (by simp)]
    exact List.forall_mem_cons.mpr ⟨kept,served.open'⟩

theorem connectionServed {world : Nat → Server} (hosted : ∀ n, Hosted fuel (world n)) (chunks : List Bytes)
    (reqCount : Nat) {request : Request} {r : HttpResponse} (safe : Safe request) (reading : request.state ≠ .finish)
    (fits : request.buffer.unread.length + chunks.flatten.length ≤ int32Max) (unsent : Unsent r) :
    ∃ done, serveHttpClient fuel world reqCount request r chunks = some done ∧ Served done := by
  induction chunks generalizing reqCount request r with
  | nil => exact ⟨[],rfl,by simp,by simp⟩
  | cons chunk rest ih =>
    simp only [List.flatten_cons, List.length_append] at fits
    have received : Safe (HttpRequest.receive request chunk) := receiveSafe safe (by omega)
    obtain ⟨-,unread⟩ := Fragmentation.receiveAppends safe.valid chunk (by omega)
    have looped := KeepAlive.parseLooped (r := HttpRequest.receive request chunk) received.valid reading
    have parsed := parseSafe received
    rw [serveHttpClient]
    rcases result : HttpRequest.parse (HttpRequest.receive request chunk) with ⟨state,next⟩
    rw [result] at looped parsed
    have size : next.buffer.unread.length ≤ _ := looped.size
    rw [unread, List.length_append] at size
    have decided : ∃ done, (match process fuel (world reqCount) state next r with
        | none => none
        | some done =>
          if done.keepAlive ∧ (reqCount + 1 : Int) < done.keepAliveCount then
            (serveHttpClient fuel world (reqCount + 1) (KeepAlive.reset next) done.reset rest).map ((done,isHead next) :: ·)
          else some [(done,isHead next)]) = some done ∧ Served done := by
      obtain ⟨s,made,sane⟩ := prepareMade (hosted reqCount) unsent parsed.head state
      rw [process, made, Option.map_some]
      simp only
      split
      · rename_i kept
        have again := resetSafe parsed 0
        have empty := (KeepAlive.resetIdle parsed.valid 0).unread
        rw [Function.iterate_zero_apply] at again empty
        obtain ⟨later,written,served⟩ := ih (reqCount + 1) (r := s.genHttpHeader.reset) again
          (by simp [KeepAlive.reset]) (by rw [empty, List.length_nil]; omega) (bareUnsent rfl rfl rfl rfl rfl)
        rw [written]
        exact ⟨_,rfl,servedMore sane _ kept.1 served⟩
      · exact ⟨_,rfl,servedOne sane _⟩
    cases state with
    | incomplete => exact ih reqCount parsed (looped.open' rfl) (by omega) unsent
    | ok => exact decided
    | bad => exact decided

def helloServer : Server where
  routes :=
    { fwdDict := fun _ => none
      findHandles := fun _ path =>
        if path = bytes "/hello" then
          some ⟨[.setCookie ⟨bytes "seen",bytes "a\x0ab",0,[],[],false,true⟩ .lax,.string 200 (bytes "hello")],false⟩
        else none }
  resourceDir := bytes "/srv"
  getResource := fun _ => .failed 404
  errorPagePath := fun _ => []
  errorTemplatePath := []

theorem helloHosted : Hosted 0 helloServer := by
  refine ⟨fun method path chain found => ?_,fun _ _ _ _ opened => (by cases opened),fun _ _ opened => (by cases opened)⟩
  simp only [helloServer, Option.ite_none_right_eq_some, Option.some.injEq] at found
  obtain ⟨-,rfl⟩ := found
  intro call inside
  simp only [List.mem_cons, List.not_mem_nil, or_false] at inside
  rcases inside with rfl | rfl
  · exact ⟨show lineFeed ∉ bytes "seen" by decide,List.not_mem_nil,List.not_mem_nil⟩
  · trivial

end Answers

section Exceptions

def silence (chain : Chain) : Chain := if chain.thrown then ⟨[],true⟩ else chain

def silenced (server : Server) : Server :=
  { server with
    routes :=
      { server.routes with
        findHandles := fun method path => (server.routes.findHandles method path).map silence } }

theorem callsKeep (calls : List Call) (c : HttpContext) :
    ({ (calls.foldl Call.run c).rsp with keepAlive := false } : HttpResponse).setShouldGenErrorPage 500 =
      ({ c.rsp with keepAlive := false } : HttpResponse).setShouldGenErrorPage 500 := by
  induction calls generalizing c with
  | nil => rfl
  | cons call calls ih =>
    rw [List.foldl_cons, ih]
    have cleared : ({ c.overwrite.rsp with keepAlive := false } : HttpResponse).setShouldGenErrorPage 500 =
        ({ c.rsp with keepAlive := false } : HttpResponse).setShouldGenErrorPage 500 := by
      unfold HttpContext.overwrite
      simp only
      split <;> rfl
    cases call with
    | json httpRetCode message => cases message <;> exact cleared
    | htmlTemplate httpRetCode templatePath args =>
      simp only [Call.run, HttpContext.htmlTemplate]
      split
      · exact cleared
      · rfl
    | status => rfl
    | setHeader => rfl
    | setCookie => rfl
    | _ => exact cleared

theorem silenceRuns (chain : Chain) (r : HttpResponse) : runHandlers (silence chain) r = runHandlers chain r := by
  rw [silence]
  split
  · rename_i thrown
    have kept := callsKeep chain.calls (.new r)
    simp only [runHandlers, thrown, if_true]
    exact kept.symm
  · rfl

theorem silencedAnswer (routes : TrailingSlash.Server Chain) (method path : Bytes) :
    TrailingSlash.handleRequest
      { routes with findHandles := fun method path => (routes.findHandles method path).map silence } method path =
      match TrailingSlash.handleRequest routes method path with
      | .redirect location => .redirect location
      | .errorPage code => .errorPage code
      | .handled path chain params => .handled path (silence chain) params := by
  unfold TrailingSlash.handleRequest
  split
  · rfl
  · simp only [TrailingSlash.dispatch]
    split
    · rfl
    · cases routes.findHandles (httpMethodStr2Enum method) _ <;> rfl

/- What handlers wrote before an exception is not seen: not in the head, not in the body. -/
theorem thrownSilent (fuel : Nat) (server : Server) (state : HttpState) (request : Request) (r : HttpResponse) :
    process fuel (silenced server) state request r = process fuel server state request r := by
  have handled : handleRequest fuel (silenced server) request r = handleRequest fuel server request r := by
    have answer := silencedAnswer server.routes request.method request.path
    unfold handleRequest
    simp only [silenced, answer]
    cases TrailingSlash.handleRequest server.routes request.method request.path with
    | redirect location => rfl
    | errorPage code => rfl
    | handled path chain params =>
      simp only [silenceRuns]
      rfl
  cases state with
  | bad => rfl
  | ok => exact congrArg _ handled
  | incomplete => exact congrArg _ handled

end Exceptions

end Uco.HttpConnection
