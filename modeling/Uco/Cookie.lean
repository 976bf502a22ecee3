import Uco.HeaderCase
import Uco.HttpSession
import Uco.Segments
import Mathlib.Data.List.DropRight

/-! Cookies of the context: what SetCookie writes, how GetCookie scans the Cookie header of a
request, and the way of a value through both. -/
namespace Uco.Cookie
open Ustring (urlEncode urlDecode unreserved encodedClean decodeEncoded everyByte)
open HttpRequest (splitAtByte splitNone splitSome)
open HttpSession (SetCookie)
open HeaderCase (getHeader)
open Segments

section Model

def semicolon : UInt8 := 59
def equalsSign : UInt8 := 61
def space : UInt8 := 32
def tab : UInt8 := 9

inductive SameSite where
  | default' | lax | strict | none'
  deriving DecidableEq, Repr

def SameSite.attribute : SameSite → Bytes
  | .default' => []
  | .lax => bytes "; SameSite=Lax"
  | .strict => bytes "; SameSite=Strict"
  | .none' => bytes "; SameSite=None"

def maxAgeText (maxAge : Int) : Bytes :=
  if maxAge > 0 then bytes "; Max-Age=" ++ bytes (toString maxAge)
  else if maxAge < 0 then bytes "; Max-Age=0"
  else []

def pair (name value : Bytes) : Bytes := name ++ equalsSign :: urlEncode value

def setCookie (cookie : SetCookie) (sameSite : SameSite) : Bytes :=
  pair cookie.name cookie.value ++ bytes "; Path=" ++ (if cookie.path = [] then bytes "/" else cookie.path) ++
    (if cookie.domain = [] then [] else bytes "; Domain=" ++ cookie.domain) ++ maxAgeText cookie.maxAge ++
    (if cookie.httpOnly then bytes "; HttpOnly" else []) ++ (if cookie.secure then bytes "; Secure" else []) ++
    sameSite.attribute

def blank (c : UInt8) : Bool := c = space ∨ c = tab

def trim (item : Bytes) : Bytes := (item.dropWhile blank).rdropWhile blank

def scan (name : Bytes) : Option Bytes → List Bytes → Option Bytes
  | found, [] => some (found.getD [])
  | found, item :: rest =>
    match splitAtByte equalsSign (trim item) with
    | none => scan name found rest
    | some (key,value) =>
      if key = name then
        if found.isSome then none else scan name (some value) rest
      else scan name found rest

/- `entries` are the header fields of the request in the order of its map. -/
def getCookie (entries : List (Bytes × Bytes)) (name : Bytes) : Bytes :=
  if name = [] then []
  else
    match scan name none (segments semicolon (getHeader entries (bytes "Cookie"))) with
    | none => []
    | some value => urlDecode value false

end Model

section Purpose

def itemName (item : Bytes) : Option Bytes := (splitAtByte equalsSign (trim item)).map Prod.fst

structure Carries (entries : List (Bytes × Bytes)) (items : List Bytes) (name value : Bytes) : Prop where
  plain : ∀ c ∈ name, c ≠ equalsSign ∧ c ≠ semicolon ∧ blank c = false
  header : getHeader entries (bytes "Cookie") = (bytes "; ").intercalate items
  each : ∀ item ∈ items, equalsSign ∈ item ∧ semicolon ∉ item
  only : items.filter (fun item => itemName item = some name) = [pair name value]

end Purpose

section Scanning

def valueOf (name item : Bytes) : Option Bytes :=
  match splitAtByte equalsSign (trim item) with
  | none => none
  | some (key,value) => if key = name then some value else none

theorem scanFound {name value : Bytes} {items : List Bytes} :
    scan name (some value) items = if items.filterMap (valueOf name) = [] then some value else none := by
  induction items with
  | nil => rfl
  | cons item items ih =>
    rw [scan, List.filterMap_cons, valueOf]
    cases splitAtByte equalsSign (trim item) with
    | none => exact ih
    | some parts =>
      by_cases same : parts.1 = name
      · simp [same]
      · simp only [same, if_false]
        exact ih

theorem scanOne {name value : Bytes} {items : List Bytes} (one : items.filterMap (valueOf name) = [value]) :
    scan name none items = some value := by
  induction items with
  | nil => cases one
  | cons item items ih =>
    rw [List.filterMap_cons, valueOf] at one
    rw [scan]
    cases cut : splitAtByte equalsSign (trim item) with
    | none =>
      rw [cut] at one
      exact ih one
    | some parts =>
      rw [cut] at one
      by_cases same : parts.1 = name
      · simp only [same, if_true, List.cons.injEq] at one ⊢
        rw [scanFound, if_pos one.2, one.1]
        rfl
      · simp only [same, if_false] at one ⊢
        exact ih one

theorem valueOfNamed {name item value : Bytes} (has : valueOf name item = some value) : itemName item = some name := by
  rw [valueOf] at has
  rw [itemName]
  split at has
  · cases has
  · rename_i key rest cut
    split at has
    · rename_i same
      rw [cut, ← same]
      rfl
    · cases has

theorem valuesOfNamed (name : Bytes) (items : List Bytes) :
    items.filterMap (valueOf name) = (items.filter fun item => itemName item = some name).filterMap (valueOf name) := by
  rw [List.filterMap_filter]
  refine List.filterMap_congr fun item _ => ?_
  by_cases named : itemName item = some name
  · simp [named]
  · simp only [named, decide_false, Bool.false_eq_true, if_false]
    exact Option.eq_none_iff_forall_ne_some.mpr fun value has => named (valueOfNamed has)

end Scanning

section Header

theorem trimSpace (item : Bytes) : trim (space :: item) = trim item := by
  rw [trim, List.dropWhile_cons_of_pos (by decide), ← trim]

theorem trimPlain {item : Bytes} (first : ∀ c, item.head? = some c → blank c = false)
    (last : ∀ c, item.getLast? = some c → blank c = false) : trim item = item := by
  have front : item.dropWhile blank = item := by
    cases item with
    | nil => rfl
    | cons c item => exact List.dropWhile_cons_of_neg (by simp [first c rfl])
  rw [trim, front, List.rdropWhile_eq_self_iff]
  intro more
  have := last _ (List.getLast?_eq_some_getLast more)
  simp [this]

theorem valueOfSpace (name item : Bytes) : valueOf name (space :: item) = valueOf name item := by
  rw [valueOf, trimSpace, ← valueOf]

theorem valueOfEmpty (name : Bytes) : valueOf name [] = none := rfl

theorem valuesBehindSpace (name text : Bytes) :
    (segments semicolon (space :: text)).filterMap (valueOf name) =
      (segments semicolon text).filterMap (valueOf name) := by
  have clean : semicolon ∉ [space] := by decide
  rw [← List.singleton_append, segmentsBefore clean (by simp), List.singleton_append, List.filterMap_cons, valueOfSpace,
    ← List.filterMap_cons]
  by_cases more : text = []
  · subst more
    rfl
  · rw [segments.eq_def semicolon text, if_neg more]

theorem valuesOfHeader (name : Bytes) {items : List Bytes} (clean : ∀ item ∈ items, semicolon ∉ item) :
    (segments semicolon ((bytes "; ").intercalate items)).filterMap (valueOf name) = items.filterMap (valueOf name) := by
  induction items with
  | nil => rw [List.intercalate_nil, segmentsNil]
  | cons item items ih =>
    obtain ⟨head,tail⟩ := List.forall_mem_cons.mp clean
    cases items with
    | nil =>
      rw [List.intercalate_singleton]
      by_cases more : item = []
      · simp [more, valueOfEmpty]
      · rw [segmentsLast head more]
    | cons next items =>
      have joined : (bytes "; ").intercalate (item :: next :: items) =
          item ++ semicolon :: space :: (bytes "; ").intercalate (next :: items) := by
        rw [List.intercalate_cons_cons, List.append_assoc]
        rfl
      rw [joined, segmentsCons head, List.filterMap_cons, valuesBehindSpace, ih tail, ← List.filterMap_cons]

end Header

section RoundTrip

theorem encodedFree {value : Bytes} {c : UInt8} (inside : c ∈ urlEncode value) :
    c ≠ semicolon ∧ blank c = false := by
  have all : ∀ c : UInt8, unreserved c = true ∨ c = Ustring.percent → c ≠ semicolon ∧ blank c = false :=
    everyByte (by decide +kernel)
  exact all c (encodedClean inside)

theorem trimPair {name : Bytes} (plain : ∀ c ∈ name, blank c = false) (value : Bytes) :
    trim (pair name value) = pair name value := by
  refine trimPlain (fun c first => ?_) fun c last => ?_
  · cases name with
    | nil =>
      cases first
      decide
    | cons d name =>
      cases first
      exact plain _ List.mem_cons_self
  · rw [pair, List.getLast?_append, List.getLast?_cons] at last
    obtain rfl := Option.some.inj last
    cases more : (urlEncode value).getLast? with
    | none => decide
    | some d => exact (encodedFree (List.mem_of_getLast? more)).2

theorem valueOfPair {name : Bytes} (plain : ∀ c ∈ name, c ≠ equalsSign ∧ blank c = false) (value : Bytes) :
    valueOf name (pair name value) = some (urlEncode value) := by
  have clean : equalsSign ∉ name := fun inside => (plain _ inside).1 rfl
  rw [valueOf, trimPair fun c inside => (plain c inside).2, pair, splitSome clean]
  simp

theorem cookieRead {entries : List (Bytes × Bytes)} {items : List Bytes} {name value : Bytes} (named : name ≠ [])
    (carries : Carries entries items name value) : getCookie entries name = value := by
  have plain : ∀ c ∈ name, c ≠ equalsSign ∧ blank c = false := fun c inside =>
    ⟨(carries.plain c inside).1,(carries.plain c inside).2.2⟩
  have one : (segments semicolon (getHeader entries (bytes "Cookie"))).filterMap (valueOf name) = [urlEncode value] := by
    rw [carries.header, valuesOfHeader name fun item inside => (carries.each item inside).2, valuesOfNamed, carries.only,
      List.filterMap_cons, valueOfPair plain, List.filterMap_nil]
  rw [getCookie, if_neg named, scanOne one]
  exact decodeEncoded value false

theorem cookieSurvives :
    (∀ entries items name value, name ≠ [] → Carries entries items name value → getCookie entries name = value) ∧
    ∀ value plusAsSpace, urlDecode (urlEncode value) plusAsSpace = value :=
  ⟨fun _ _ _ _ => cookieRead,decodeEncoded⟩

def themeItems : List Bytes := [bytes "lang=en",bytes "theme=%3Bdark%20",bytes "theme2=%zz"]

theorem themeCarried : Carries [(bytes "cookie",bytes "lang=en; theme=%3Bdark%20; theme2=%zz")] themeItems
    (bytes "theme") (bytes ";dark ") :=
  ⟨by decide +kernel,by decide,by decide,by decide⟩

theorem themeCookie :
    getCookie [(bytes "cookie",bytes "lang=en; theme=%3Bdark%20; theme2=%zz")] (bytes "theme") = bytes ";dark " :=
  cookieSurvives.1 _ themeItems _ _ (by decide) themeCarried

/- The scan finds the item of the empty name, the guard in front of it does not let it. -/
theorem namelessCookie : ¬∀ entries items name value, Carries entries items name value →
    getCookie entries name = value := by
  intro always
  have carries : Carries [(bytes "Cookie",bytes "=x")] [bytes "=x"] [] (bytes "x") :=
    ⟨by decide +kernel,by decide,by decide,by decide⟩
  exact absurd (always _ _ _ _ carries) (by decide)

end RoundTrip

end Uco.Cookie
