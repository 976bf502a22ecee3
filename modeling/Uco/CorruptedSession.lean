import Uco.SessionRun
import Uco.SessionRoundTrip

/-! Stored data that does not parse. Both parsers write their output as they read,
so what was complete before the failure is still there when they give up, and
neither InitLoad nor AddFlash clears it. -/
namespace Uco.CorruptedSession
open SessionJson HttpSession

def firstMember (raw : Bytes) : Option (Bytes × Bytes) := do
  let body ← eat openBrace raw
  let (k, afterKey) ← parseString body
  let afterColon ← eat colon afterKey
  let (v, _) ← parseString afterColon
  some (k, v)

def firstItem (raw : Bytes) : Option Bytes := do
  let body ← eat openBracket raw
  let (item, _) ← parseString body
  some item

theorem skipWsTwice (rest : Bytes) : skipWs (skipWs rest) = skipWs rest := by
  induction rest with
  | nil => rfl
  | cons c rest ih =>
    cases white : isWs c with
    | true => simpa [skipWs, white] using ih
    | false => simp [skipWs, white]

theorem parseStringSkipsWs (rest : Bytes) : parseString (skipWs rest) = parseString rest := by
  simp [parseString, eat, skipWsTwice]

theorem membersStay {k : Bytes} (rounds : Nat) {kv : Values} (inside : k ∈ kv) (rest : Bytes) :
    k ∈ (parseMembers rounds kv rest).2.1 := by
  induction rounds generalizing kv rest with
  | zero => exact inside
  | succ rounds ih =>
    unfold parseMembers
    split
    · exact inside
    · split
      · exact inside
      · rename_i name _ _ _ value _ _
        have stays : k ∈ kv.insertIfNew name value :=
          Std.ExtTreeMap.mem_insertIfNew.mpr (.inr inside)
        simp only
        split
        · exact ih stays _
        · split <;> exact stays

theorem membersEmptyIff (rounds : Nat) (rest : Bytes) :
    (parseMembers (rounds + 1) ∅ rest).2.1 = ∅ ↔
      (parseString rest).bind (fun key => (eat colon key.2).bind parseString) = none := by
  cases key : parseString rest with
  | none => simp [parseMembers, key]
  | some key' =>
    obtain ⟨k, afterKey⟩ := key'
    cases value : (eat colon afterKey).bind parseString with
    | none => simp [parseMembers, key, value]
    | some value' =>
      obtain ⟨v, afterValue⟩ := value'
      have written : k ∈ (parseMembers (rounds + 1) ∅ rest).2.1 := by
        have new : k ∈ (∅ : Values).insertIfNew k v := Std.ExtTreeMap.mem_insertIfNew_self
        simp only [parseMembers, key, value]
        split
        · exact membersStay rounds new _
        · split <;> exact new
      have full : (parseMembers (rounds + 1) ∅ rest).2.1 ≠ ∅ := by
        intro empty
        rw [empty] at written
        simp at written
      simp [full, value]

theorem emptyIff (raw : Bytes) : (parseSessionJson raw).2 = ∅ ↔ firstMember raw = none := by
  have values : (parseSessionJson raw).2 = (parse raw).2.1 := rfl
  rw [values]
  cases opened : eat openBrace raw with
  | none => simp [parse, firstMember, opened]
  | some body =>
    obtain ⟨rounds, size⟩ : ∃ rounds, raw.length = rounds + 1 := by
      cases raw with
      | nil => simp [eat, skipWs] at opened
      | cons c rest => exact ⟨rest.length, rfl⟩
    have loop := membersEmptyIff rounds (skipWs body)
    have first : firstMember raw = none ↔
        (parseString (skipWs body)).bind (fun key => (eat colon key.2).bind parseString) = none := by
      rw [parseStringSkipsWs]
      cases key : parseString body with
      | none => simp [firstMember, opened, key]
      | some key' =>
        cases afterColon : eat colon key'.2 with
        | none => simp [firstMember, opened, key, afterColon]
        | some afterColon' => cases value : parseString afterColon' <;>
            simp [firstMember, opened, key, afterColon, value]
    rw [first, ← loop]
    cases visible : skipWs body with
    | nil => simp [parse, opened, visible, size]
    | cons c tail =>
      by_cases closed : c = closeBrace
      · have noString : parseString (c :: tail) = none := by
          subst closed
          simp [parseString, eatOther (show isWs closeBrace = false by decide)
            (show closeBrace ≠ quote by decide)]
        simp [parse, opened, visible, closed, parseMembers] at noString ⊢
        simp [noString]
      · simp [parse, opened, visible, closed, size]

theorem itemsStay (rounds : Nat) (out : List Bytes) (rest : Bytes) :
    out <+: (parseItems rounds out rest).2.1 := by
  induction rounds generalizing out rest with
  | zero => exact List.prefix_refl out
  | succ rounds ih =>
    unfold parseItems
    split
    · exact List.prefix_refl out
    · rename_i item _ _
      simp only
      split
      · exact (List.prefix_append out [item]).trans (ih _ _)
      · split <;> exact List.prefix_append out [item]

theorem itemsEmptyIff (rounds : Nat) (rest : Bytes) :
    (parseItems (rounds + 1) [] rest).2.1 = [] ↔ parseString rest = none := by
  cases read : parseString rest with
  | none => simp [parseItems, read]
  | some read' =>
    obtain ⟨item, afterItem⟩ := read'
    have written : [item] <+: (parseItems (rounds + 1) [] rest).2.1 := by
      simp only [parseItems, read, List.nil_append]
      split
      · exact itemsStay rounds [item] _
      · split <;> exact List.prefix_refl [item]
    have full : (parseItems (rounds + 1) [] rest).2.1 ≠ [] := by
      intro empty
      rw [empty] at written
      simp at written
    simp [full]

theorem flashEmptyIff {raw : Bytes} (failed : (parseFlashArray raw).1 = false) :
    (parseFlashArray raw).2 = [] ↔ firstItem raw = none := by
  cases raw with
  | nil => simp [parseFlashArray, firstItem, eat, skipWs]
  | cons c rest =>
    cases opened : eat openBracket (c :: rest) with
    | none => simp [parseFlashArray, firstItem, opened]
    | some body =>
      cases closed : eat closeBracket body with
      | some tail => simp [parseFlashArray, opened, closed] at failed
      | none =>
        have loop := itemsEmptyIff rest.length body
        simp only [parseFlashArray, List.cons_ne_nil, if_false, opened, closed, List.length_cons, loop]
        cases item : parseString body <;> simp [firstItem, opened, item]

section Load
variable (store : SessionStore) (env : Environment)

def Fresh (s : Session) : Prop := s.mapValues = ∅ ∧ s.isNew = true

theorem loadedFreshIff (id : Bytes) {raw : Bytes} (corrupted : (parseSessionJson raw).1 = false) :
    Fresh (loadedSession id (.ok raw)) ↔ firstMember raw = none := by
  rw [← emptyIff]
  cases parsed : parseSessionJson raw with
  | mk ok kv =>
    rw [parsed] at corrupted
    cases corrupted
    simp [Fresh, loadedSession, parsed, Session.fresh]

theorem getSet (s : Session) (key value : Bytes) : get (set s key value) key = value := by
  simp [HttpSession.get, HttpSession.set]

theorem addFlashOneIff (s : Session) (value inkey : Bytes)
    (corrupted : (parseFlashArray (get s (flashKeyOf store inkey))).1 = false) :
    get (addFlash store s value inkey) (flashKeyOf store inkey) = dumpFlashArray [value] ↔
      firstItem (get s (flashKeyOf store inkey)) = none := by
  rw [← flashEmptyIff corrupted, addFlash, getSet]
  constructor
  · intro one
    simpa using dumpFlashInjective one
  · intro none
    rw [none]
    rfl

/- Corrupted data contributes nothing exactly when its first member, or its first
item, is already broken. -/
theorem corruptedNothingIff :
    (∀ cookie id raw w, parseSignedCookie store cookie = some id →
      (loadValues store env id w).1 = .ok raw → (parseSessionJson raw).1 = false →
      (Fresh (initLoad store env cookie w).1 ↔ firstMember raw = none)) ∧
    (∀ s value inkey, (parseFlashArray (get s (flashKeyOf store inkey))).1 = false →
      (get (addFlash store s value inkey) (flashKeyOf store inkey) = dumpFlashArray [value] ↔
        firstItem (get s (flashKeyOf store inkey)) = none)) := by
  refine ⟨fun cookie id raw w verified loaded corrupted => ?_, addFlashOneIff store⟩
  rw [initLoadSession store env verified, loaded]
  exact loadedFreshIff id corrupted

end Load

def answering (raw : Bytes) : Environment := ⟨fun _ => some ⟨0, .string, raw⟩, fun _ _ => 0⟩

theorem brokenNothing :
    Fresh (initLoad defaultStore (answering (bytes "\x7b\"user\"")) visitorCookie .start).1 ∧
    HttpSession.get (addFlash defaultStore .fresh (bytes "new") []) (bytes "_flash") =
      dumpFlashArray [bytes "new"] := by
  have exact := corruptedNothingIff defaultStore (answering (bytes "\x7b\"user\""))
  exact ⟨(exact.1 visitorCookie visitorID (bytes "\x7b\"user\"") .start visitorVerified (by decide)
    (by decide)).mpr (by decide), (exact.2 .fresh (bytes "new") [] (by decide)).mpr (by decide)⟩

def cutOff : Bytes := bytes "\x7b\"user\":\"1\","

theorem cutOffStays :
    parseSignedCookie defaultStore visitorCookie = some visitorID ∧
    (loadValues defaultStore (answering cutOff) visitorID .start).1 = .ok cutOff ∧
    (parseSessionJson cutOff).1 = false ∧
    get (initLoad defaultStore (answering cutOff) visitorCookie .start).1 (bytes "user") = bytes "1" ∧
    ¬ Fresh (initLoad defaultStore (answering cutOff) visitorCookie .start).1 ∧
    (parseFlashArray (bytes "[\"old\"")).1 = false ∧
    get (addFlash defaultStore (set .fresh (bytes "_flash") (bytes "[\"old\"")) (bytes "new") [])
      (bytes "_flash") ≠ dumpFlashArray [bytes "new"] := by
  have kept : get (initLoad defaultStore (answering cutOff) visitorCookie .start).1 (bytes "user") =
      bytes "1" := by decide
  refine ⟨visitorVerified, by decide, by decide, kept, fun fresh => ?_, by decide, by decide⟩
  rw [HttpSession.get, fresh.1] at kept
  exact absurd kept (by decide)

end Uco.CorruptedSession
