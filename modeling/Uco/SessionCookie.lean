import Uco.Cookie

/-! The signed cookie of a session: which texts ParseSignedCookie accepts, and the way of an id
from WriteCookie through the client into InitLoad. -/
namespace Uco.SessionCookie
open HttpSession
open Segments
open Cookie (Carries getCookie cookieRead)

section Purpose

def Hex (text : Bytes) : Prop := text.all (fun c => (hexValue c).isSome) = true

instance (text : Bytes) : Decidable (Hex text) := by unfold Hex; infer_instance

structure Signed (store : SessionStore) (cookie id : Bytes) : Prop where
  named : id ≠ []
  hex : Hex id
  text : cookie = id ++ dotByte :: store.signID id

def Emits (store : SessionStore) (id : Bytes) (cookie : SetCookie) : Prop :=
  ∃ s maxAge w, s.sID = id ∧ (writeCookie store s maxAge w).cookies = w.cookies ++ [cookie]

end Purpose

section Parsing
variable {store : SessionStore} {cookie id : Bytes}

theorem hexUndotted {text : Bytes} (hex : Hex text) : dotByte ∉ text := by
  intro inside
  have digit := List.all_eq_true.mp hex dotByte inside
  exact absurd digit (by decide)

theorem cutAtLastDot (front : Bytes) {sig : Bytes} (clean : dotByte ∉ sig) :
    ((front ++ dotByte :: sig).reverse.takeWhile (· ≠ dotByte)).reverse = sig ∧
    (front ++ dotByte :: sig).reverse.dropWhile (· ≠ dotByte) = dotByte :: front.reverse := by
  have turned : (front ++ dotByte :: sig).reverse = sig.reverse ++ dotByte :: front.reverse := by simp
  have plain : dotByte ∉ sig.reverse := by simpa using clean
  have keeps := keepsClean plain
  rw [turned, List.takeWhile_append_of_pos keeps, List.dropWhile_append_of_pos keeps,
    List.takeWhile_cons_of_neg (by simp), List.dropWhile_cons_of_neg (by simp)]
  simp

theorem dotsOrNone (cookie : Bytes) : dotByte ∉ cookie ∨ ∃ front sig, cookie = front ++ dotByte :: sig ∧ dotByte ∉ sig := by
  by_cases dotted : dotByte ∈ cookie
  · obtain ⟨sig,front,turned,clean⟩ := List.eq_append_cons_of_mem (List.mem_reverse.mpr dotted)
    have text := congrArg List.reverse turned
    rw [List.reverse_reverse] at text
    exact .inr ⟨front.reverse,sig.reverse,by simpa using text,by simpa using clean⟩
  · exact .inl dotted

theorem parsedUndotted (undotted : dotByte ∉ cookie) : parseSignedCookie store cookie = none := by
  have plain : dotByte ∉ cookie.reverse := by simpa using undotted
  have keeps := keepsClean plain
  rw [parseSignedCookie, List.dropWhile_eq_nil_iff.mpr keeps]

theorem parsedDotted {front sig : Bytes} (clean : dotByte ∉ sig) :
    parseSignedCookie store (front ++ dotByte :: sig) =
      if (front ≠ [] ∧ Hex front) ∧ sig ≠ [] ∧ sig = store.signID front then some front else none := by
  obtain ⟨after,before⟩ := cutAtLastDot front clean
  rw [parseSignedCookie, after, before]
  simp only [List.reverse_reverse, Hex]
  grind

theorem parsedIff (hexSigned : ∀ x, Hex (store.signID x)) :
    parseSignedCookie store cookie = some id ↔ Signed store cookie id ∧ store.signID id ≠ [] := by
  constructor
  · intro parsed
    obtain undotted | ⟨front,sig,rfl,clean⟩ := dotsOrNone cookie
    · rw [parsedUndotted undotted] at parsed
      cases parsed
    · rw [parsedDotted clean] at parsed
      obtain ⟨⟨named,more,same⟩,whole⟩ := Option.ite_none_right_eq_some.mp parsed
      cases whole
      subst same
      exact ⟨⟨named.1,named.2,rfl⟩,more⟩
  · rintro ⟨⟨named,hex,rfl⟩,more⟩
    rw [parsedDotted (hexUndotted (hexSigned id)), if_pos ⟨⟨named,hex⟩,more,rfl⟩]

end Parsing

section Loading
variable {store : SessionStore}

theorem hexDigits (raw : Bytes) : Hex (hexOf raw) := by
  have each : ∀ b : UInt8, Hex (hexOf [b]) := Ustring.everyByte (by decide +kernel)
  induction raw with
  | nil => rfl
  | cons b raw ih =>
    have cons : hexOf (b :: raw) = hexOf [b] ++ hexOf raw := by simp [hexOf]
    rw [Hex, cons, List.all_append, each b, ih]
    rfl

theorem newIdHex (env : Environment) (w : World) : (newSessionID env w).1 ≠ [] ∧ Hex (newSessionID env w).1 := by
  refine ⟨fun empty => ?_,hexDigits _⟩
  have := congrArg List.length empty
  simp [newSessionID] at this

theorem emitted {id : Bytes} {cookie : SetCookie} (emits : Emits store id cookie) :
    cookie.name = store.cookieName ∧ cookie.value = id ++ dotByte :: store.signID id := by
  obtain ⟨s,maxAge,w,rfl,wrote⟩ := emits
  obtain rfl := List.singleton_inj.mp (List.append_cancel_left wrote)
  exact ⟨rfl,rfl⟩

theorem loadedNamed (id : Bytes) (loaded : LoadResult) : (loadedSession id loaded).sID = id := by
  cases loaded with
  | ok raw =>
    rw [loadedSession]
    split <;> rfl
  | missing => rfl
  | error => rfl

theorem initLoaded (env : Environment) {cookie id : Bytes} (w : World)
    (parsed : parseSignedCookie store cookie = some id) :
    (initLoad store env cookie w).1 = loadedSession id (loadValues store env id w).1 := by
  have more : cookie ≠ [] := by
    rintro rfl
    cases parsed
  rw [initLoad, if_neg more, parsed]
  simp only
  split <;> rfl

theorem sessionCookies (store : SessionStore) (hexSigned : ∀ x, Hex (store.signID x)) :
    (∀ cookie id, parseSignedCookie store cookie = some id ↔ Signed store cookie id ∧ store.signID id ≠ []) ∧
    ∀ env w id, (newSessionID env w).1 = id → store.signID id ≠ [] → ∀ cookie, Emits store id cookie →
      ∀ entries items, cookie.name ≠ [] → Carries entries items cookie.name cookie.value → ∀ env' w',
        (initLoad store env' (getCookie entries store.cookieName) w').1.sID = id ∧
        (initLoad store env' (getCookie entries store.cookieName) w').1 =
          loadedSession id (loadValues store env' id w').1 := by
  refine ⟨fun cookie id => parsedIff hexSigned,?_⟩
  rintro env w id rfl signed cookie emits entries items named carries env' w'
  obtain ⟨name,value⟩ := emitted emits
  obtain ⟨more,hex⟩ := newIdHex env w
  have read := cookieRead named carries
  rw [name, value] at read
  have parsed := (parsedIff hexSigned).mpr ⟨⟨more,hex,rfl⟩,signed⟩
  rw [read, initLoaded env' w' parsed]
  exact ⟨loadedNamed _ _,rfl⟩

def drawing : Environment := ⟨fun _ => none,fun _ n => 1 + 34 * (n % 8).toUInt8⟩

theorem visitorDrawn : (newSessionID drawing .start).1 = visitorID := by decide

def visitorItems (name : Bytes) : List Bytes := [bytes "lang=en",Cookie.pair name visitorCookie]

def visitorEntries (name : Bytes) : List (Bytes × Bytes) :=
  [(bytes "Cookie",(bytes "; ").intercalate (visitorItems name))]

theorem defaultSigned (x : Bytes) : Hex (defaultStore.signID x) := by
  unfold defaultStore
  simp only
  split <;> decide

theorem visitorLoaded : parseSignedCookie defaultStore visitorCookie = some visitorID ∧
    (initLoad defaultStore drawing (getCookie (visitorEntries (bytes "uco_session")) (bytes "uco_session")) .start).1.sID =
      visitorID :=
  ⟨((sessionCookies defaultStore defaultSigned).1 visitorCookie visitorID).mpr
      ⟨⟨by decide,by decide,rfl⟩,visitorSigned⟩,
    ((sessionCookies defaultStore defaultSigned).2 drawing .start visitorID visitorDrawn visitorSigned
      ⟨bytes "uco_session",visitorCookie,600,bytes "/",[],false,true⟩
      ⟨{ Session.fresh with sID := visitorID },600,.start,rfl,rfl⟩ (visitorEntries (bytes "uco_session"))
      (visitorItems (bytes "uco_session")) (by decide)
      ⟨by decide +kernel,by decide,by decide,by decide⟩ drawing .start).1⟩

theorem unsignedCookies :
    ¬(∀ store : SessionStore, (∀ x, Hex (store.signID x)) → ∀ cookie id,
      parseSignedCookie store cookie = some id ↔ Signed store cookie id) ∧
    ¬(∀ store : SessionStore, (∀ x, Hex (store.signID x)) → ∀ env w id, (newSessionID env w).1 = id →
      store.signID id ≠ [] → ∀ cookie, Emits store id cookie → ∀ entries items,
        Carries entries items cookie.name cookie.value → ∀ env' w',
          (initLoad store env' (getCookie entries store.cookieName) w').1.sID = id) := by
  constructor
  · intro always
    have parsed := (always { defaultStore with signID := fun _ => [] } (fun _ => rfl) (bytes "a.") (bytes "a")).mpr
      ⟨by decide,by decide,rfl⟩
    exact absurd parsed (by decide)
  · intro always
    have loaded := always { defaultStore with cookieName := [] } defaultSigned drawing .start visitorID
      visitorDrawn visitorSigned ⟨[],visitorCookie,600,bytes "/",[],false,true⟩
      ⟨{ Session.fresh with sID := visitorID },600,.start,rfl,rfl⟩ (visitorEntries []) (visitorItems [])
      ⟨by decide +kernel,by decide,by decide,by decide⟩ drawing .start
    exact absurd loaded (by decide)

end Loading

end Uco.SessionCookie
