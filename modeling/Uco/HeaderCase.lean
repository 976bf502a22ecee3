import Uco.WholeRequest
import Uco.PartialResponse

/-! Two requests that differ in the letter case of their header field names. ParseHeader and
the lookup of Range compare names as they are spelled, GetHeader ignores the case. -/
namespace Uco.HeaderCase
open HttpRequest Fragmentation WholeRequest
open Ustring (tolower equalsIgnoreCase)

section Requests

inductive Recased : Bytes → Bytes → Prop
  | nil : Recased [] []
  | value (rest : Bytes) : Recased (colon :: rest) (colon :: rest)
  | name {c c' : UInt8} {line line' : Bytes} (letter : c ≠ colon) (same : tolower c = tolower c')
      (rest : Recased line line') : Recased (c :: line) (c' :: line')

structure Sent where
  requestLine : Bytes
  headers : List Bytes
  rest : Bytes
  plain : ∀ line ∈ requestLine :: headers, Plain line
  full : ∀ line ∈ headers, lineText line ≠ []
  fits : (wire (requestLine :: headers ++ [[]]) ++ rest).length ≤ int32Max

def Sent.raw (q : Sent) : Bytes := wire (q.requestLine :: q.headers ++ [[]]) ++ q.rest

def Sent.texts (q : Sent) : List Bytes := q.headers.map lineText

def Distinct (texts : List Bytes) : Prop :=
  texts.Pairwise fun t u => ∀ a b, field t = some a → field u = some b → equalsIgnoreCase a.1 b.1 = false

structure Recasing (q q' : Sent) : Prop where
  requestLine : q'.requestLine = q.requestLine
  rest : q'.rest = q.rest
  headers : List.Forall₂ Recased q.headers q'.headers
  distinct : Distinct q.texts

/- HttpContext::GetHeader over the entries in the order of the hash map. -/
def getHeader (entries : List (Bytes × Bytes)) (key : Bytes) : Bytes :=
  ((entries.find? fun entry => equalsIgnoreCase entry.1 key).map Prod.snd).getD []

def rangeHandling (r : Request) (cached : Int) (more : PartialResponse.Headers) : Option PartialResponse.Handled :=
  r.mapHeader[bytes "Range"]?.map fun value => PartialResponse.handleRange value cached more

structure Seen where
  method : Bytes
  path : Bytes
  protocol : Bytes
  contentType : Bytes
  versionMajor : Int
  versionMinor : Int
  contentLength : Int
  keepAlive : Bool
  state : ParseState
  body : Bytes

def seen (r : Request) : Seen :=
  ⟨r.method,r.path,r.protocol,r.contentType,r.versionMajor,r.versionMinor,r.contentLength,r.keepAlive,r.state,
    peekRawData r⟩

structure Alike (a b : HttpState × Request) : Prop where
  state : a.1 = b.1
  seen : a.1 ≠ .bad → seen a.2 = seen b.2
  range : a.1 ≠ .bad → ∀ cached more, rangeHandling a.2 cached more = rangeHandling b.2 cached more
  getHeader : a.1 ≠ .bad → ∀ entries entries', entries.Perm a.2.mapHeader.toList →
    entries'.Perm b.2.mapHeader.toList → ∀ key, getHeader entries key = getHeader entries' key

def SameSpelling (name a b : Bytes) : Prop := a = name ↔ b = name

structure Harmless (versionKeepsAlive : Bool) (a b value : Bytes) : Prop where
  connection : SameSpelling (bytes "Connection") a b ∨ decide (value = bytes "keep-alive") = versionKeepsAlive
  contentLength : SameSpelling (bytes "Content-Length") a b ∨ atoi value = 0
  contentType : SameSpelling (bytes "Content-Type") a b ∨ value = []
  range : SameSpelling (bytes "Range") a b

def WellFormed (q : Sent) : Prop :=
  (parseRequestLine .fresh (lineText q.requestLine)).1 = true ∧ ∀ text ∈ q.texts, colon ∈ text

def versionKeepsAlive (q : Sent) : Bool := (parseRequestLine .fresh (lineText q.requestLine)).2.keepAlive

def Spelled (q q' : Sent) : Prop :=
  WellFormed q → ∀ pair ∈ q.texts.zip q'.texts, ∀ a b value, field pair.1 = some (a,value) →
    field pair.2 = some (b,value) → Harmless (versionKeepsAlive q) a b value

end Requests

section Letters

theorem tolowerKeeps {d : UInt8} (low : d < 65) (c : UInt8) : tolower c = d ↔ c = d := by
  unfold tolower
  split
  · rename_i upper
    rw [← UInt8.toNat_inj, ← UInt8.toNat_inj]
    have small : d.toNat < 65 := UInt8.lt_iff_toNat_lt.mp low
    have least : 65 ≤ c.toNat := UInt8.le_iff_toNat_le.mp upper.1
    have most : c.toNat ≤ 90 := UInt8.le_iff_toNat_le.mp upper.2
    rw [UInt8.toNat_add]
    change (c.toNat + 32) % 256 = d.toNat ↔ c.toNat = d.toNat
    omega
  · exact Iff.rfl

theorem sameLow {d c c' : UInt8} (low : d < 65) (same : tolower c = tolower c') : c = d ↔ c' = d := by
  rw [← tolowerKeeps low c, ← tolowerKeeps low c', same]

theorem ignoreCase {a b : Bytes} : equalsIgnoreCase a b = true ↔ a.map tolower = b.map tolower := by
  simp [equalsIgnoreCase]

theorem recasedText {line line' : Bytes} (recased : Recased line line') :
    Recased (cString line) (cString line') := by
  induction recased with
  | nil => exact .nil
  | value rest =>
    have kept : cString (colon :: rest) = colon :: cString rest := rfl
    rw [kept]
    exact .value _
  | @name c c' line line' letter same rest ih =>
    have zero := sameLow (d := 0) (by decide) same
    by_cases ends : c = 0
    · have ends' := zero.mp ends
      subst ends ends'
      exact .nil
    · have goes : cString (c :: line) = c :: cString line := by simp [cString, ends]
      have ends' : ¬c' = 0 := fun h => ends (zero.mpr h)
      have goes' : cString (c' :: line') = c' :: cString line' := by simp [cString, ends']
      rw [goes, goes']
      exact .name letter same ih

theorem recasedSame (line : Bytes) : Recased line line := by
  induction line with
  | nil => exact .nil
  | cons c line ih =>
    by_cases here : c = colon
    · subst here
      exact .value line
    · exact .name here rfl ih

theorem recasedAppend {line line' : Bytes} (recased : Recased line line') (tail : Bytes) :
    Recased (line ++ tail) (line' ++ tail) := by
  induction recased with
  | nil => exact recasedSame tail
  | value rest => exact .value (rest ++ tail)
  | name letter same rest ih => exact .name letter same ih

theorem recasedLine {line line' : Bytes} (recased : Recased line line') :
    Recased (lineText line) (lineText line') :=
  recasedText (recasedAppend recased [0])

theorem recasedSplit {line line' : Bytes} (recased : Recased line line') :
    (splitAtByte colon line = none ∧ splitAtByte colon line' = none) ∨ ∃ a b rest,
      splitAtByte colon line = some (a,rest) ∧ splitAtByte colon line' = some (b,rest) ∧
      a.map tolower = b.map tolower := by
  induction recased with
  | nil => exact .inl ⟨rfl,rfl⟩
  | value rest => exact .inr ⟨[],[],rest,by simp [splitAtByte],by simp [splitAtByte],rfl⟩
  | @name c c' line line' letter same rest ih =>
    have letter' : c' ≠ colon := fun h => letter ((sameLow (d := colon) (by decide) same).mpr h)
    rw [splitAtByte, if_neg letter, splitAtByte, if_neg letter']
    rcases ih with ⟨none',none''⟩ | ⟨a,b,rest,split,split',alike⟩
    · exact .inl ⟨by rw [none']; rfl,by rw [none'']; rfl⟩
    · exact .inr ⟨c :: a,c' :: b,rest,by rw [split]; rfl,by rw [split']; rfl,by
        rw [List.map_cons, List.map_cons, same, alike]⟩

theorem trimLower (text : Bytes) : (trimRight text).map tolower = trimRight (text.map tolower) := by
  have spaces : (fun c : UInt8 => decide (c = space)) ∘ tolower = fun c => decide (c = space) := by
    funext c
    exact decide_eq_decide.mpr (tolowerKeeps (d := space) (by decide) c)
  have kept : ((text.map tolower).reverse.dropWhile (· = space)).reverse =
      ((text.reverse.dropWhile (· = space)).reverse).map tolower := by
    rw [← List.map_reverse, List.dropWhile_map, spaces, ← List.map_reverse]
  unfold trimRight
  simp only [kept, List.map_eq_nil_iff]
  split <;> rfl

theorem recasedField {line line' : Bytes} (recased : Recased line line') :
    (field line = none ∧ field line' = none) ∨ ∃ a b value,
      field line = some (a,value) ∧ field line' = some (b,value) ∧ equalsIgnoreCase a b = true := by
  rcases recasedSplit recased with ⟨none',none''⟩ | ⟨a,b,rest,split,split',alike⟩
  · exact .inl ⟨by rw [field, none']; rfl,by rw [field, none'']; rfl⟩
  · refine .inr ⟨trimRight a,trimRight b,_,by rw [field, split]; rfl,by rw [field, split']; rfl,?_⟩
    rw [ignoreCase, trimLower, trimLower, alike]

end Letters

section Fields

def Far (key : Bytes) (texts : List Bytes) : Prop :=
  ∀ text ∈ texts, ∀ a, field text = some a → equalsIgnoreCase a.1 key = false

theorem farNot {name key : Bytes} (far : equalsIgnoreCase name key = false) : name ≠ key := by
  rintro rfl
  simp [equalsIgnoreCase] at far

theorem lastFar {key : Bytes} {texts : List Bytes} (far : Far key texts) : lastValue key texts = none := by
  induction texts with
  | nil => rfl
  | cons text texts ih =>
    rw [Far, List.forall_mem_cons] at far
    rw [lastValue, ih far.2, Option.none_or]
    rcases read : field text with _ | ⟨name,value⟩
    · rfl
    · simp [farNot (far.1 _ read)]

theorem ignoreAlike {a b : Bytes} (alike : equalsIgnoreCase a b = true) (key : Bytes) :
    equalsIgnoreCase a key = equalsIgnoreCase b key := by
  simp only [equalsIgnoreCase, ignoreCase.mp alike]

theorem farRecased {key : Bytes} {texts texts' : List Bytes} (recased : List.Forall₂ Recased texts texts')
    (far : Far key texts) : Far key texts' := by
  induction recased with
  | nil => exact far
  | @cons text text' texts texts' here rest ih =>
    rw [Far, List.forall_mem_cons] at far ⊢
    refine ⟨fun b read => ?_,ih far.2⟩
    rcases recasedField here with ⟨-,none'⟩ | ⟨a,b',value,first,second,alike⟩
    · simp [none'] at read
    · obtain rfl : (b',value) = b := by simpa [second] using read
      rw [← ignoreAlike alike]
      exact far.1 _ first

theorem farBehind {key text : Bytes} {texts : List Bytes} {a : Bytes × Bytes} (distinct : Distinct (text :: texts))
    (read : field text = some a) (near : equalsIgnoreCase a.1 key = true) : Far key texts := by
  intro u mem b read'
  have apart := (List.pairwise_cons.mp distinct).1 u mem a b read read'
  rw [Bool.eq_false_iff, ne_eq, ignoreCase] at apart ⊢
  intro second
  exact apart ((ignoreCase.mp near).trans second.symm)

theorem farSpelled {P : Bytes → Prop} {key : Bytes} {texts texts' : List Bytes}
    (recased : List.Forall₂ Recased texts texts') (far : Far key texts) :
    ∀ pair ∈ texts.zip texts', ∀ a b value, field pair.1 = some (a,value) → field pair.2 = some (b,value) →
      SameSpelling key a b ∨ P value := by
  intro pair mem a b value first second
  have inside := List.of_mem_zip mem
  have far' := farRecased recased far
  exact .inl (iff_of_false (farNot (far _ inside.1 _ first)) (farNot (far' _ inside.2 _ second)))

theorem spelledIff {α : Type} (g : Option Bytes → α) (key : Bytes) {texts texts' : List Bytes}
    (recased : List.Forall₂ Recased texts texts') (distinct : Distinct texts)
    (fields : ∀ text ∈ texts, (field text).isSome) :
    g (lastValue key texts) = g (lastValue key texts') ↔ ∀ pair ∈ texts.zip texts', ∀ a b value,
      field pair.1 = some (a,value) → field pair.2 = some (b,value) →
      SameSpelling key a b ∨ g (some value) = g none := by
  induction recased with
  | nil => simp
  | @cons text text' texts texts' here rest ih =>
    rw [List.forall_mem_cons] at fields
    rcases recasedField here with ⟨none',-⟩ | ⟨a,b,value,first,second,alike⟩
    · simp [none'] at fields
    · rw [List.zip_cons_cons, List.forall_mem_cons, lastValue, lastValue, first, second]
      simp only [Option.bind_some]
      have head (Q : Bytes → Bytes → Bytes → Prop) : (∀ x y v, some (a,value) = some (x,v) →
          some (b,value) = some (y,v) → Q x y v) ↔ Q a b value := by
        constructor
        · exact fun all => all a b value rfl rfl
        · rintro one x y v ⟨⟩ ⟨⟩
          exact one
      rw [head fun x y v => SameSpelling key x y ∨ g (some v) = g none]
      cases near : equalsIgnoreCase a key with
      | true =>
        have far := farBehind distinct first near
        rw [lastFar far, lastFar (farRecased rest far), Option.none_or, Option.none_or,
          and_iff_left (farSpelled rest far)]
        by_cases spelled : a = key <;> by_cases spelled' : b = key <;> simp [SameSpelling, spelled, spelled', eq_comm]
      | false =>
        have other : a ≠ key := farNot near
        have other' : b ≠ key := farNot (by rw [← ignoreAlike alike, near])
        rw [if_neg other, if_neg other', Option.or_none, Option.or_none,
          and_iff_right (.inl (iff_of_false other other'))]
        exact ih (List.pairwise_cons.mp distinct).2 fields.2

def caselessValue (key : Bytes) (texts : List Bytes) : Option Bytes :=
  texts.findSome? fun text =>
    (field text).bind fun (name,value) => if equalsIgnoreCase name key then some value else none

theorem caselessRecased (key : Bytes) {texts texts' : List Bytes} (recased : List.Forall₂ Recased texts texts') :
    caselessValue key texts = caselessValue key texts' := by
  induction recased with
  | nil => rfl
  | cons here rest ih =>
    rw [caselessValue, caselessValue, List.findSome?_cons, List.findSome?_cons]
    rcases recasedField here with ⟨none',none''⟩ | ⟨a,b,value,first,second,alike⟩
    · simp only [none', none'', Option.bind_none]
      exact ih
    · simp only [first, second, Option.bind_some, ignoreAlike alike]
      split
      · rfl
      · exact ih

theorem caselessUnique {key text : Bytes} {a : Bytes × Bytes} {texts : List Bytes} (distinct : Distinct texts)
    (mem : text ∈ texts) (read : field text = some a) (near : equalsIgnoreCase a.1 key = true) :
    caselessValue key texts = some a.2 ∧ lastValue a.1 texts = some a.2 := by
  have itself : equalsIgnoreCase a.1 a.1 = true := by simp [equalsIgnoreCase]
  induction texts with
  | nil => cases mem
  | cons first texts ih =>
    rw [caselessValue, List.findSome?_cons, lastValue]
    rcases List.mem_cons.mp mem with rfl | mem
    · have behind := lastFar (farBehind distinct read itself)
      simp [read, near, behind]
    · have later := ih (List.pairwise_cons.mp distinct).2 mem
      refine ⟨?_,by simp [later.2]⟩
      rcases other : field first with _ | b
      · exact later.1
      · have far : equalsIgnoreCase b.1 key = false := by
          rw [Bool.eq_false_iff]
          intro near'
          have apart := farBehind distinct other near' _ mem a read
          simp [near] at apart
        simp only [Option.bind_some, far, Bool.false_eq_true, if_false]
        exact later.1

theorem lastRead {key value : Bytes} {texts : List Bytes} (last : lastValue key texts = some value) :
    ∃ text ∈ texts, field text = some (key,value) := by
  induction texts with
  | nil => cases last
  | cons text texts ih =>
    rw [lastValue, Option.or_eq_some_iff] at last
    rcases last with later | ⟨-,here⟩
    · obtain ⟨u,mem,read⟩ := ih later
      exact ⟨u,List.mem_cons_of_mem _ mem,read⟩
    · obtain ⟨⟨name,v⟩,read,same⟩ := Option.bind_eq_some_iff.mp here
      obtain ⟨rfl,rfl⟩ : name = key ∧ v = value := by simpa using same
      exact ⟨text,List.mem_cons_self,read⟩

theorem getHeaderValue {map : HeaderMap} {texts : List Bytes} (distinct : Distinct texts)
    (values : ∀ key, map[key]? = lastValue key texts) {entries : List (Bytes × Bytes)}
    (all : entries.Perm map.toList) (key : Bytes) : getHeader entries key = (caselessValue key texts).getD [] := by
  have member (a : Bytes × Bytes) : a ∈ entries ↔ lastValue a.1 texts = some a.2 := by
    rw [all.mem_iff, ← values]
    exact Std.ExtTreeMap.mem_toList_iff_getElem?_eq_some
  rw [getHeader]
  congr 1
  rcases found : entries.find? fun entry => equalsIgnoreCase entry.1 key with _ | a
  · rw [found, Option.map_none, eq_comm, caselessValue, List.findSome?_eq_none_iff]
    intro text mem
    rcases read : field text with _ | b
    · rfl
    · simp only [Option.bind_some, ite_eq_right_iff, reduceCtorEq, imp_false]
      intro near
      have inside := (member b).mpr (caselessUnique distinct mem read near).2
      exact List.find?_eq_none.mp found b inside near
  · obtain ⟨text,mem,read⟩ := lastRead ((member a).mp (List.mem_of_find?_eq_some found))
    have near : equalsIgnoreCase a.1 key = true := by simpa using List.find?_some found
    rw [found, (caselessUnique distinct mem read near).1, Option.map_some]

end Fields

section Runs

def run (r : Request) (q : Sent) : HttpState × Request := parse (receive r q.raw)

def readable (rest : Bytes) : Bytes := if rest = [] then [0,0] else rest

structure AtBody (r : Request) (rest : Bytes) : Prop where
  state : r.state = .body
  valid : Buffer.Valid r.buffer
  unread : r.buffer.unread = readable rest

theorem headersParse {lines : List Bytes} {rest : Bytes} {r : Request} (state : r.state = .header)
    (line : InLine r [] (wire (lines ++ [[]]) ++ rest) []) (plain : ∀ line ∈ lines, Plain line)
    (full : ∀ line ∈ lines, lineText line ≠ []) :
    (readHead r.toRequestHead (lines.map lineText ++ [[]]) = none ∧ ∃ r', parseLoop r = (.bad,r')) ∨
    ∃ r', readHead r.toRequestHead (lines.map lineText ++ [[]]) = some r'.toRequestHead ∧ AtBody r' rest ∧
      parseLoop r = parseBody r' := by
  have open' : r.state ≠ .body := by simp [state]
  induction lines generalizing r with
  | nil =>
    have blank : InLine r [] ([] ++ crlf ++ rest) [] :=
      ⟨line.valid,by simpa [wireBlank] using line.unread,line.near⟩
    obtain ⟨r',read,done⟩ := parseLineDone (by simp [Plain]) blank
    have empty : r'.curLine = [] := done.curLine
    have next : lineRead r' = (true,{ r' with state := .body }) := by
      simp [lineRead, done.state, state, empty]
    refine .inr ⟨{ r' with state := .body },by simp [readHead, done.head],⟨rfl,done.valid,?_⟩,?_⟩
    · exact done.unread
    · rw [parseLoopLine open' read, next, if_pos rfl, parseLoopBody rfl]
  | cons first lines ih =>
    rw [List.forall_mem_cons] at plain full
    have here : InLine r [] (first ++ crlf ++ (wire (lines ++ [[]]) ++ rest)) first :=
      ⟨line.valid,by simpa [wireCons, List.append_assoc] using line.unread,Nat.le_trans line.near (by simp)⟩
    obtain ⟨r',read,done⟩ := parseLineDone (by simpa using plain.1) here
    have text : r'.curLine = lineText first := done.curLine
    have more : wire (lines ++ [[]]) ++ rest ≠ [] := by cases lines <;> simp [wireCons, crlf]
    rw [List.map_cons, List.cons_append, readHead, if_neg full.1, ← done.head, parseLoopLine open' read]
    cases parsed : parseHeader r'.toRequestHead (lineText first) with
    | none =>
      have next : lineRead r' = (false,r') := by
        simp [lineRead, done.state, state, text, full.1, parsed]
      exact .inl ⟨rfl,r',by rw [next]; rfl⟩
    | some h =>
      have next : lineRead r' = (true,{ r' with toRequestHead := h }) := by
        simp [lineRead, done.state, state, text, full.1, parsed]
      have unread : r'.buffer.unread = wire (lines ++ [[]]) ++ rest := done.unread.trans (if_neg more)
      have at' : InLine { r' with toRequestHead := h } [] (wire (lines ++ [[]]) ++ rest) [] :=
        ⟨done.valid,unread,by simp [done.offset]⟩
      rw [next, if_pos rfl]
      exact ih (r := { r' with toRequestHead := h }) (done.state.trans state) at' plain.2 full.2
        (by simp [done.state, state])

theorem runCases {r : Request} (idle : Idle r) (q : Sent) :
    (headOf (lineText q.requestLine :: (q.texts ++ [[]])) = none ∧ ∃ r', run r q = (.bad,r')) ∨
    ∃ r', headOf (lineText q.requestLine :: (q.texts ++ [[]])) = some r'.toRequestHead ∧ AtBody r' q.rest ∧
      run r q = parseBody r' := by
  have begins : (receive r q.raw).state = .start := idle.state
  have wired : q.raw = q.requestLine ++ crlf ++ (wire (q.headers ++ [[]]) ++ q.rest) := by
    rw [Sent.raw, List.cons_append, wireCons, List.append_assoc]
  obtain ⟨valid,unread⟩ := receiveAppends idle.valid q.raw (by
    have fits := q.fits
    rw [idle.unread]
    simpa [Sent.raw] using fits)
  have first : InLine { receive r q.raw with state := .requestLine } []
      (q.requestLine ++ crlf ++ (wire (q.headers ++ [[]]) ++ q.rest)) q.requestLine :=
    ⟨valid,by rw [← wired, List.nil_append]; simpa [idle.unread] using unread,by simp [receive, idle.offset]⟩
  have plain := List.forall_mem_cons.mp q.plain
  obtain ⟨r',read,done⟩ := parseLineDone (by simpa using plain.1) first
  have text : r'.curLine = lineText q.requestLine := done.curLine
  have head : r'.toRequestHead = .fresh := done.head.trans idle.head
  have more : wire (q.headers ++ [[]]) ++ q.rest ≠ [] := by cases q.headers <;> simp [wireCons, crlf]
  have unread' : r'.buffer.unread = wire (q.headers ++ [[]]) ++ q.rest := done.unread.trans (if_neg more)
  rw [run, parse, if_pos begins, parseLoopLine (by simp) read, headOf]
  rcases parsed : parseRequestLine .fresh (lineText q.requestLine) with ⟨_ | _,h⟩
  · have next : lineRead r' = (false,{ r' with toRequestHead := h }) := by
      simp [lineRead, done.state, text, head, parsed]
    exact .inl ⟨rfl,_,by rw [next]; rfl⟩
  · have next : lineRead r' = (true,{ r' with toRequestHead := h, state := .header }) := by
      simp [lineRead, done.state, text, head, parsed]
    rw [next, if_pos rfl]
    exact headersParse (r := { r' with toRequestHead := h, state := .header }) rfl
      ⟨done.valid,unread',by simp [done.offset]⟩ plain.2 q.full

structure Carried (first h : RequestHead) : Prop where
  protocol : h.protocol = first.protocol
  versionMajor : h.versionMajor = first.versionMajor
  versionMinor : h.versionMinor = first.versionMinor
  contentType : h.contentType = h.mapHeader[bytes "Content-Type"]?.getD first.contentType

theorem carriedHeader {first h h' : RequestHead} {line : Bytes} (carried : Carried first h)
    (parsed : parseHeader h line = some h') : Carried first h' := by
  unfold parseHeader at parsed
  split at parsed
  · cases parsed
  · generalize trimRight _ = key at parsed
    generalize trimRight _ = val at parsed
    cases parsed
    refine ⟨?_,?_,?_,?_⟩
    · simp only [apply_ite RequestHead.protocol, ite_self, carried.protocol]
    · simp only [apply_ite RequestHead.versionMajor, ite_self, carried.versionMajor]
    · simp only [apply_ite RequestHead.versionMinor, ite_self, carried.versionMinor]
    · simp only [apply_ite RequestHead.contentType, apply_ite RequestHead.mapHeader, ite_self,
        Std.ExtTreeMap.getElem?_insert, Std.LawfulEqCmp.compare_eq_iff_eq]
      split
      · rfl
      · exact carried.contentType

theorem carriedRead {first h h' : RequestHead} {lines : List Bytes} (carried : Carried first h)
    (read : readHead h lines = some h') : Carried first h' := by
  induction lines generalizing h with
  | nil => cases read
  | cons line rest ih =>
    unfold readHead at read
    split at read
    · split at read
      · cases read
        exact carried
      · cases read
    · obtain ⟨next,parsed,after⟩ := Option.bind_eq_some_iff.mp read
      exact ih (carriedHeader carried parsed) after

structure HeadOf (first : RequestHead) (texts : List Bytes) (h : RequestHead) : Prop where
  method : h.method = first.method
  path : h.path = first.path
  carried : Carried first h
  keepAlive : h.keepAlive =
    ((lastValue (bytes "Connection") texts).map fun value => decide (value = bytes "keep-alive")).getD first.keepAlive
  contentLength : h.contentLength = ((lastValue (bytes "Content-Length") texts).map atoi).getD 0
  contentType : h.contentType = (lastValue (bytes "Content-Type") texts).getD []
  values : ∀ key, h.mapHeader[key]? = lastValue key texts

theorem headValues {line : Bytes} {first h : RequestHead} {texts : List Bytes}
    (parsed : parseRequestLine .fresh line = (true,first)) (full : ∀ text ∈ texts, text ≠ [])
    (read : readHead first (texts ++ [[]]) = some h) : HeadOf first texts h := by
  have values (key : Bytes) : h.mapHeader[key]? = lastValue key texts := by
    rw [readHeadValues full read, firstMap parsed]
    simp
  have untyped : first.contentType = [] := by
    unfold parseRequestLine at parsed
    split at parsed
    · cases parsed
    · simp only at parsed
      split at parsed
      · cases parsed
      · split at parsed <;> cases parsed
        rfl
  have derived := derivedRead (derivedFirst parsed) read
  have carried : Carried first h := by
    refine carriedRead ⟨rfl,rfl,rfl,?_⟩ read
    rw [firstMap parsed]
    simp
  refine ⟨derived.method,derived.path,carried,?_,?_,?_,values⟩
  · rw [derived.keepAlive, values]
  · rw [derived.contentLength, values]
  · rw [carried.contentType, values, untyped]

theorem parseBodyCases (r : Request) :
    (parseBody r).1 ≠ .bad ∧ ∃ state, (parseBody r).2 = { r with state := state } := by
  unfold parseBody
  split
  · exact ⟨by simp,.finish,rfl⟩
  · exact ⟨by simp,r.state,rfl⟩

theorem rangeSame {a b : Request} : (∀ cached more, rangeHandling a cached more = rangeHandling b cached more) →
    (a.mapHeader[bytes "Range"]?).isSome = (b.mapHeader[bytes "Range"]?).isSome := by
  intro same
  have sizes := congrArg Option.isSome (same 0 [])
  simpa [rangeHandling] using sizes

theorem bodySame {a b : Request} {rest : Bytes} (atA : AtBody a rest) (atB : AtBody b rest)
    (length : a.contentLength = b.contentLength) :
    (parseBody a).1 = (parseBody b).1 ∧ (parseBody a).2.state = (parseBody b).2.state ∧
      peekRawData (parseBody a).2 = peekRawData (parseBody b).2 := by
  have sizeA := Buffer.unreadLength atA.valid.placed
  have sizeB := Buffer.unreadLength atB.valid.placed
  rw [atA.unread] at sizeA
  rw [atB.unread] at sizeB
  unfold parseBody
  rw [← sizeA, ← sizeB, ← length]
  split
  · rename_i enough
    refine ⟨rfl,rfl,?_⟩
    have peekA := peekUnread (r := { a with state := .finish }) rfl (by simpa [← sizeA] using enough.2)
    have peekB := peekUnread (r := { b with state := .finish }) rfl (by simpa [← sizeB, ← length] using enough.2)
    rw [peekA, peekB]
    simp only [atA.unread, atB.unread, length]
  · refine ⟨rfl,atA.state.trans atB.state.symm,?_⟩
    simp [peekRawData, atA.state, atB.state]

theorem bodiesAlike {first : RequestHead} {a b : Request} {texts texts' : List Bytes} {rest : Bytes}
    (headA : HeadOf first texts a.toRequestHead) (headB : HeadOf first texts' b.toRequestHead)
    (atA : AtBody a rest) (atB : AtBody b rest) (recased : List.Forall₂ Recased texts texts')
    (distinct : Distinct texts) (distinct' : Distinct texts') (fields : ∀ text ∈ texts, (field text).isSome) :
    Alike (parseBody a) (parseBody b) ↔ ∀ pair ∈ texts.zip texts', ∀ x y value,
      field pair.1 = some (x,value) → field pair.2 = some (y,value) → Harmless first.keepAlive x y value := by
  have keep := spelledIff (fun o => (o.map fun value => decide (value = bytes "keep-alive")).getD first.keepAlive)
    (bytes "Connection") recased distinct fields
  have length := spelledIff (fun o => (o.map atoi).getD 0) (bytes "Content-Length") recased distinct fields
  have type := spelledIff (fun o => o.getD []) (bytes "Content-Type") recased distinct fields
  have range := spelledIff id (bytes "Range") recased distinct fields
  have present := spelledIff Option.isSome (bytes "Range") recased distinct fields
  simp only [Option.map_some, Option.map_none, Option.getD_some, Option.getD_none, Option.isSome_some, id,
    Option.isSome_none, Bool.true_eq_false, reduceCtorEq, or_false] at keep length type range present
  rw [← headA.keepAlive, ← headB.keepAlive] at keep
  rw [← headA.contentLength, ← headB.contentLength] at length
  rw [← headA.contentType, ← headB.contentType] at type
  rw [← headA.values, ← headB.values] at range present
  obtain ⟨goodA,stateA,afterA⟩ := parseBodyCases a
  obtain ⟨goodB,stateB,afterB⟩ := parseBodyCases b
  constructor
  · intro alike pair mem x y value readX readY
    have same := alike.seen goodA
    rw [afterA, afterB] at same
    have found := present.mp (rangeSame (by
      have handled := alike.range goodA
      rw [afterA, afterB] at handled
      exact handled))
    exact ⟨keep.mp (congrArg Seen.keepAlive same) pair mem x y value readX readY,
      length.mp (congrArg Seen.contentLength same) pair mem x y value readX readY,
      type.mp (congrArg Seen.contentType same) pair mem x y value readX readY,found pair mem x y value readX readY⟩
  · intro harmless
    have sameKeep := keep.mpr fun pair mem x y value readX readY => (harmless pair mem x y value readX readY).connection
    have sameLength := length.mpr fun pair mem x y value readX readY =>
      (harmless pair mem x y value readX readY).contentLength
    have sameType := type.mpr fun pair mem x y value readX readY =>
      (harmless pair mem x y value readX readY).contentType
    have sameRange := range.mpr fun pair mem x y value readX readY => (harmless pair mem x y value readX readY).range
    obtain ⟨state,after,body⟩ := bodySame atA atB sameLength
    refine ⟨state,fun _ => ?_,fun _ cached more => ?_,fun _ entries entries' all all' key => ?_⟩
    · rw [afterA, afterB] at body after ⊢
      simp only [seen, body, sameKeep, sameLength, sameType, headA.method, headB.method, headA.path, headB.path,
        headA.carried.protocol, headB.carried.protocol, headA.carried.versionMajor, headB.carried.versionMajor,
        headA.carried.versionMinor, headB.carried.versionMinor]
      simp only at after
      rw [after]
    · rw [afterA, afterB]
      simp only [rangeHandling, sameRange]
    · rw [afterA] at all
      rw [afterB] at all'
      rw [getHeaderValue distinct headA.values all, getHeaderValue distinct' headB.values all',
        caselessRecased key recased]

theorem textsRecased {q q' : Sent} (recasing : Recasing q q') : List.Forall₂ Recased q.texts q'.texts := by
  rw [Sent.texts, Sent.texts, List.forall₂_map_left_iff, List.forall₂_map_right_iff]
  exact recasing.headers.imp fun _ _ => recasedLine

theorem distinctRecased {texts texts' : List Bytes} (recased : List.Forall₂ Recased texts texts')
    (distinct : Distinct texts) : Distinct texts' := by
  induction recased with
  | nil => exact distinct
  | @cons text text' texts texts' here rest ih =>
    obtain ⟨apart,behind⟩ := List.pairwise_cons.mp distinct
    refine List.pairwise_cons.mpr ⟨fun u mem a b readA readB => ?_,ih behind⟩
    rcases recasedField here with ⟨-,none'⟩ | ⟨x,y,value,first,second,alike⟩
    · simp [none'] at readA
    · obtain rfl : (y,value) = a := by simpa [second] using readA
      have far : Far x texts := fun v inside c readC => by
        have other := apart v inside (x,value) c first readC
        rw [Bool.eq_false_iff, ne_eq, ignoreCase] at other ⊢
        exact fun same => other same.symm
      have far' := farRecased rest far u mem b readB
      rw [Bool.eq_false_iff, ne_eq, ignoreCase] at far' ⊢
      exact fun same => far' (same.symm.trans (ignoreCase.mp alike).symm)

theorem fieldsRecased {texts texts' : List Bytes} (recased : List.Forall₂ Recased texts texts') :
    (∀ text ∈ texts, (field text).isSome) ↔ ∀ text ∈ texts', (field text).isSome := by
  induction recased with
  | nil => exact Iff.rfl
  | cons here rest ih =>
    rw [List.forall_mem_cons, List.forall_mem_cons, ih]
    rcases recasedField here with ⟨none',none''⟩ | ⟨a,b,value,first,second,-⟩
    · rw [none', none'']
    · rw [first, second]
      rfl

theorem runRefused {r : Request} (idle : Idle r) {q : Sent}
    (refused : headOf (lineText q.requestLine :: (q.texts ++ [[]])) = none) : ∃ r', run r q = (.bad,r') := by
  rcases runCases idle q with ⟨-,bad⟩ | ⟨r',read,-⟩
  · exact bad
  · rw [refused] at read
    cases read

theorem runRead {r : Request} (idle : Idle r) {q : Sent} {first : RequestHead}
    (parsed : parseRequestLine .fresh (lineText q.requestLine) = (true,first))
    (fields : ∀ text ∈ q.texts, (field text).isSome) :
    ∃ r', HeadOf first q.texts r'.toRequestHead ∧ AtBody r' q.rest ∧ run r q = parseBody r' := by
  have full : ∀ text ∈ q.texts, text ≠ [] := by simpa [Sent.texts] using q.full
  have some' : (readHead first (q.texts ++ [[]])).isSome := (readHeadSome full).mpr fields
  rcases runCases idle q with ⟨refused,-⟩ | ⟨r',read,at',same⟩
  · rw [headOf, parsed] at refused
    simp [refused] at some'
  · rw [headOf, parsed] at read
    exact ⟨r',headValues parsed full read,at',same⟩

theorem alikeBad {a b : Request} : Alike (.bad,a) (.bad,b) :=
  ⟨rfl,fun good => absurd rfl good,fun good => absurd rfl good,fun good => absurd rfl good⟩

/- The case of the names makes no difference unless one of the four that are compared as
spelled is respelled in a field that counts. -/
theorem caseIff {r : Request} (idle : Idle r) {q q' : Sent} (recasing : Recasing q q') :
    Alike (run r q) (run r q') ↔ Spelled q q' := by
  have recased := textsRecased recasing
  rcases parsed : parseRequestLine .fresh (lineText q.requestLine) with ⟨_ | _,first⟩
  · have refused (t : Sent) (same : t.requestLine = q.requestLine) : ∃ r', run r t = (.bad,r') :=
      runRefused idle (by rw [headOf, same, parsed])
    obtain ⟨a,runA⟩ := refused q rfl
    obtain ⟨b,runB⟩ := refused q' recasing.requestLine
    rw [runA, runB]
    exact iff_of_true alikeBad fun formed => absurd formed.1 (by simp [parsed])
  · by_cases fields : ∀ text ∈ q.texts, (field text).isSome
    · have parsed' : parseRequestLine .fresh (lineText q'.requestLine) = (true,first) := by
        rw [recasing.requestLine, parsed]
      obtain ⟨a,headA,atA,runA⟩ := runRead idle parsed fields
      obtain ⟨b,headB,atB,runB⟩ := runRead idle parsed' ((fieldsRecased recased).mp fields)
      rw [recasing.rest] at atB
      have formed : WellFormed q := ⟨by rw [parsed],fun text mem => (fieldSome text).mp (fields text mem)⟩
      have keeps : versionKeepsAlive q = first.keepAlive := by rw [versionKeepsAlive, parsed]
      rw [runA, runB, bodiesAlike headA headB atA atB recased recasing.distinct
        (distinctRecased recased recasing.distinct) fields, Spelled, keeps]
      exact ⟨fun all _ => all,fun all => all formed⟩
    · have refused (t : Sent) (same : t.requestLine = q.requestLine)
          (unread : ¬∀ text ∈ t.texts, (field text).isSome) : ∃ r', run r t = (.bad,r') := by
        have full : ∀ text ∈ t.texts, text ≠ [] := by simpa [Sent.texts] using t.full
        have none' : readHead first (t.texts ++ [[]]) = none := by
          rw [← Option.not_isSome_iff_eq_none, readHeadSome full]
          exact unread
        exact runRefused idle (by rw [headOf, same, parsed]; exact none')
      obtain ⟨a,runA⟩ := refused q rfl fields
      obtain ⟨b,runB⟩ := refused q' recasing.requestLine (fun all => fields ((fieldsRecased recased).mpr all))
      rw [runA, runB]
      exact iff_of_true alikeBad fun formed => absurd (fun text mem => (fieldSome text).mpr (formed.2 text mem)) fields

theorem recasedOf {name name' : Bytes} (rest : Bytes) (clean : colon ∉ name)
    (same : name.map tolower = name'.map tolower) : Recased (name ++ colon :: rest) (name' ++ colon :: rest) := by
  induction name generalizing name' with
  | nil =>
    obtain rfl : name' = [] := List.map_eq_nil_iff.mp same.symm
    exact .value rest
  | cons c name ih =>
    cases name' with
    | nil => cases same
    | cons c' name' =>
      rw [List.mem_cons, not_or] at clean
      obtain ⟨letter,tail⟩ := List.cons.inj same
      exact .name (Ne.symm clean.1) letter (ih clean.2 tail)

end Runs

section Uploads

theorem postPlain {name value : Bytes} (plain : Plain (name ++ colon :: value)) :
    ∀ line ∈ [bytes "POST / HTTP/1.1",name ++ colon :: value], Plain line :=
  List.forall_mem_cons.mpr ⟨by decide,List.forall_mem_singleton.mpr plain⟩

theorem postFits {name value : Bytes} (short : (name ++ colon :: value).length < 1000) :
    (wire (bytes "POST / HTTP/1.1" :: [name ++ colon :: value] ++ [[]]) ++ bytes "ab").length ≤ int32Max := by
  have line : (bytes "POST / HTTP/1.1").length = 15 := by decide
  have body : (bytes "ab").length = 2 := by decide
  have limit : int32Max = 2147483647 := rfl
  have none' : wire [] = [] := rfl
  simp only [List.cons_append, List.nil_append, wireCons, crlf, List.length_append, line, body, none',
    List.length_cons, List.length_nil] at short ⊢
  omega

def post (name value : Bytes) (plain : Plain (name ++ colon :: value)) (full : lineText (name ++ colon :: value) ≠ [])
    (short : (name ++ colon :: value).length < 1000) : Sent where
  requestLine := bytes "POST / HTTP/1.1"
  headers := [name ++ colon :: value]
  rest := bytes "ab"
  plain := postPlain plain
  full := List.forall_mem_singleton.mpr full
  fits := postFits short

theorem postRecased {name name' value : Bytes} {plain plain' full full' short short'} (clean : colon ∉ name)
    (same : name.map tolower = name'.map tolower) :
    Recasing (post name value plain full short) (post name' value plain' full' short') :=
  ⟨rfl,rfl,.cons (recasedOf value clean same) .nil,List.pairwise_singleton _ _⟩

def token : Sent := post (bytes "X-Token") (bytes " 7") (by decide) (by decide) (by decide)
def tokenLower : Sent := post (bytes "x-token") (bytes " 7") (by decide) (by decide) (by decide)
def sized : Sent := post (bytes "Content-Length") (bytes " 2") (by decide) (by decide) (by decide)
def sizedLower : Sent := post (bytes "content-length") (bytes " 2") (by decide) (by decide) (by decide)

theorem tokenAlike : Alike (run .fresh token) (run .fresh tokenLower) := by
  refine (caseIff idleFresh (postRecased (by decide) (by decide))).mpr fun _ pair mem a b value readA readB => ?_
  obtain rfl := List.mem_singleton.mp mem
  have read : field (lineText (bytes "X-Token" ++ colon :: bytes " 7")) = some (bytes "X-Token",bytes "7") := by
    decide
  have read' : field (lineText (bytes "x-token" ++ colon :: bytes " 7")) = some (bytes "x-token",bytes "7") := by
    decide
  obtain ⟨rfl,rfl⟩ := Prod.mk.inj (Option.some.inj (read.symm.trans readA))
  obtain ⟨rfl,-⟩ := Prod.mk.inj (Option.some.inj (read'.symm.trans readB))
  have unlike {name : Bytes} (first : bytes "X-Token" ≠ name) (second : bytes "x-token" ≠ name) :
      SameSpelling name (bytes "X-Token") (bytes "x-token") := iff_of_false first second
  exact ⟨.inl (unlike (by decide) (by decide)),.inl (unlike (by decide) (by decide)),
    .inl (unlike (by decide) (by decide)),unlike (by decide) (by decide)⟩

theorem lowerLosesBody : Recasing sized sizedLower ∧ ¬Alike (run .fresh sized) (run .fresh sizedLower) := by
  refine ⟨postRecased (by decide) (by decide),fun alike => ?_⟩
  obtain ⟨a,headA,-,runA⟩ := runRead idleFresh (q := sized) rfl (by decide)
  obtain ⟨b,headB,-,runB⟩ := runRead idleFresh (q := sizedLower) rfl (by decide)
  obtain ⟨good,stateA,afterA⟩ := parseBodyCases a
  obtain ⟨-,stateB,afterB⟩ := parseBodyCases b
  rw [runA, runB] at alike
  have same := alike.seen good
  rw [afterA, afterB] at same
  have length : a.contentLength = b.contentLength := congrArg Seen.contentLength same
  have two : ((lastValue (bytes "Content-Length") sized.texts).map atoi).getD 0 = 2 := by decide
  have zero : ((lastValue (bytes "Content-Length") sizedLower.texts).map atoi).getD 0 = 0 := by decide
  rw [headA.contentLength, headB.contentLength, two, zero] at length
  cases length

end Uploads
end Uco.HeaderCase
