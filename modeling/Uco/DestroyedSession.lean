import Uco.SessionRun
import Uco.SessionRoundTrip

/-! What is written after a session was destroyed. The deletion branch of Save
clears the id and the flags but leaves the values in memory, so what the handler
does afterwards is added to the old data instead of to an empty session. -/
namespace Uco.DestroyedSession
open SessionJson HttpSession

inductive Call where
  | edit (e : Edit)
  | save
  | rotate
  deriving DecidableEq, Repr

section Run
variable (store : SessionStore) (env : Environment)

def editValues (kv : Values) (e : Edit) : Values :=
  (edit store { Session.fresh with mapValues := kv } e).mapValues

theorem editedValues (s : Session) (e : Edit) :
    (edit store s e).mapValues = editValues store s.mapValues e := by
  cases e with
  | delete key =>
    simp only [editValues, edit, HttpSession.delete]
    split <;> rfl
  | clear =>
    simp only [editValues, edit, HttpSession.clear]
    split <;> rfl
  | flashes key =>
    simp only [editValues, edit, flashes, HttpSession.get, HttpSession.delete]
    split
    · rfl
    · split <;> rfl
  | setMaxAge seconds =>
    simp only [editValues, edit, HttpSession.setMaxAge]
    split <;> rfl
  | _ => rfl

def outlive (left : Values) : Edit → Values
  | .set key _ => left.erase key
  | .delete key => left.erase key
  | .clear => ∅
  | .addFlash value inkey =>
    let key := flashKeyOf store inkey
    match left[key]? with
    | none => left
    | some old =>
      if (parseFlashArray old).2 = [] then left.erase key
      else left.insert key (dumpFlashArray ((parseFlashArray old).2 ++ [value]))
  | .flashes inkey =>
    let key := flashKeyOf store inkey
    match left[key]? with
    | none => left
    | some old => if (parseFlashArray old).1 then left.erase key else left
  | _ => left

def SetsOnly (json : Bytes) (before after : World) : Prop :=
  ∀ key other ttl, .set key other ttl ∈ commandsOf before after → other = json

def restart (s : Session) (saved : Result) (new kept : Option Values) : Option Values :=
  if s.destroyed = true ∧ saved.ok = true then new else kept

/- From the end of a destroyed session on, every SET carries what the operations
since then make of an empty session. Before one has ended nothing is asked. -/
def StaysGone : List Call → Session → World → Option Values → Prop
  | [], _, _, _ => True
  | .edit e :: rest, s, w, anew => StaysGone rest (edit store s e) w (anew.map (editValues store · e))
  | .save :: rest, s, w, anew =>
    let saved := save store env s w
    (∀ kv, anew = some kv → SetsOnly (dumpSessionJson kv) w saved.world) ∧
      StaysGone rest saved.session saved.world (restart s saved (some ∅) anew)
  | .rotate :: rest, s, w, anew =>
    let rotated := rotate store env s w
    (∀ kv, anew = some kv → SetsOnly (dumpSessionJson kv) w rotated.world) ∧
      StaysGone rest rotated.session rotated.world (restart s rotated (some ∅) anew)

def SendsSet (s : Session) (w : World) : Prop := ¬ Gone s ∧ env.exchange w.turn ≠ none

def Settled : List Call → Session → World → Option Values → Prop
  | [], _, _, _ => True
  | .edit e :: rest, s, w, left => Settled rest (edit store s e) w (left.map (outlive store · e))
  | .save :: rest, s, w, left =>
    let saved := save store env s w
    (∀ kv, left = some kv → Permitted s → SendsSet env s w → kv = ∅) ∧
      Settled rest saved.session saved.world (restart s saved (some s.mapValues) left)
  | .rotate :: rest, s, w, left =>
    let rotated := rotate store env s w
    (∀ kv, left = some kv → SendsSet env s w → kv = ∅) ∧
      Settled rest rotated.session rotated.world (restart s rotated (some s.mapValues) left)

structure Tracks (values anew left : Values) : Prop where
  apart : ∀ k : Bytes, left[k]? = none → values[k]? = anew[k]?
  held : ∀ k v : Bytes, left[k]? = some v → values[k]? = some v ∧
    (anew[k]? = none ∨ ∃ old items, old ≠ [] ∧ v = dumpFlashArray (old ++ items) ∧
      anew[k]? = some (dumpFlashArray items))

theorem tracksStart (values : Values) : Tracks values ∅ values :=
  ⟨fun k none => by simpa using none, fun k v some => ⟨some, .inl (by simp)⟩⟩

theorem tracksEqual {values anew left : Values} (tracks : Tracks values anew left) :
    values = anew ↔ left = ∅ := by
  constructor
  · intro same
    refine Std.ExtTreeMap.ext_getElem? fun k => ?_
    cases found : left[k]? with
    | none => simp
    | some v =>
      obtain ⟨inValues, origin⟩ := tracks.held k v found
      rw [same] at inValues
      rcases origin with absent | ⟨old, items, some, dumped, inAnew⟩
      · simp [absent] at inValues
      · rw [inAnew, dumped] at inValues
        have lists := dumpFlashInjective (Option.some.inj inValues)
        exact absurd (by simpa using lists) some
  · intro empty
    refine Std.ExtTreeMap.ext_getElem? fun k => tracks.apart k ?_
    simp [empty]

theorem eraseAbsent {kv : Values} {k : Bytes} (absent : kv[k]? = none) : kv.erase k = kv := by
  refine Std.ExtTreeMap.ext_getElem? fun other => ?_
  rw [Std.ExtTreeMap.getElem?_erase]
  split
  · rename_i same
    rw [← Std.LawfulEqCmp.compare_eq_iff_eq.mp same, absent]
  · rfl

theorem deletedValues (kv : Values) (key : Bytes) : editValues store kv (.delete key) = kv.erase key := by
  simp only [editValues, edit, HttpSession.delete]
  split
  · rfl
  · rename_i absent
    exact (eraseAbsent (Std.ExtTreeMap.getElem?_eq_none absent)).symm

theorem clearedValues (kv : Values) : editValues store kv .clear = ∅ := by
  simp only [editValues, edit, HttpSession.clear]
  split
  · rename_i empty
    exact Std.ExtTreeMap.isEmpty_iff.mp empty
  · rfl

def itemsAt (kv : Values) (key : Bytes) : Bool × List Bytes := parseFlashArray ((kv[key]?).getD [])

theorem flashedValues (kv : Values) (value inkey : Bytes) :
    editValues store kv (.addFlash value inkey) = kv.insert (flashKeyOf store inkey)
      (dumpFlashArray ((itemsAt kv (flashKeyOf store inkey)).2 ++ [value])) := rfl

theorem readValues (kv : Values) (inkey : Bytes) : editValues store kv (.flashes inkey) =
    if (itemsAt kv (flashKeyOf store inkey)).1 then kv.erase (flashKeyOf store inkey) else kv := by
  have deleted := deletedValues store kv (flashKeyOf store inkey)
  simp only [editValues, edit, flashes, itemsAt, HttpSession.get, Session.fresh] at deleted ⊢
  split
  · rename_i broken
    simp [broken]
  · rename_i read
    simp [read, deleted]

theorem itemsAbsent {kv : Values} {key : Bytes} (absent : kv[key]? = none) : itemsAt kv key = (false, []) := by
  rw [itemsAt, absent]
  rfl

theorem itemsDumped {kv : Values} {key : Bytes} {items : List Bytes}
    (held : kv[key]? = some (dumpFlashArray items)) : itemsAt kv key = (true, items) := by
  rw [itemsAt, held]
  exact parseDumpedFlash items

theorem tracksInsert {values anew left : Values} (tracks : Tracks values anew left) (key value : Bytes) :
    Tracks (values.insert key value) (anew.insert key value) (left.erase key) := by
  refine ⟨fun k absent => ?_, fun k v found => ?_⟩
  · rw [Std.ExtTreeMap.getElem?_erase] at absent
    rw [Std.ExtTreeMap.getElem?_insert, Std.ExtTreeMap.getElem?_insert]
    split
    · rfl
    · rename_i other
      exact tracks.apart k (by simpa [other] using absent)
  · rw [Std.ExtTreeMap.getElem?_erase] at found
    split at found
    · cases found
    · rename_i other
      simpa [Std.ExtTreeMap.getElem?_insert, other] using tracks.held k v found

theorem tracksErase {values anew left : Values} (tracks : Tracks values anew left) (key : Bytes) :
    Tracks (values.erase key) (anew.erase key) (left.erase key) := by
  refine ⟨fun k absent => ?_, fun k v found => ?_⟩
  · rw [Std.ExtTreeMap.getElem?_erase] at absent
    rw [Std.ExtTreeMap.getElem?_erase, Std.ExtTreeMap.getElem?_erase]
    split
    · rfl
    · rename_i other
      exact tracks.apart k (by simpa [other] using absent)
  · rw [Std.ExtTreeMap.getElem?_erase] at found
    split at found
    · cases found
    · rename_i other
      simpa [Std.ExtTreeMap.getElem?_erase, other] using tracks.held k v found

theorem tracksGrow {values anew left : Values} (tracks : Tracks values anew left) {key : Bytes}
    {old items : List Bytes} (full : old ≠ []) :
    Tracks (values.insert key (dumpFlashArray (old ++ items))) (anew.insert key (dumpFlashArray items))
      (left.insert key (dumpFlashArray (old ++ items))) := by
  refine ⟨fun k absent => ?_, fun k v found => ?_⟩
  · rw [Std.ExtTreeMap.getElem?_insert] at absent
    split at absent
    · cases absent
    · rename_i other
      simpa [Std.ExtTreeMap.getElem?_insert, other] using tracks.apart k absent
  · rw [Std.ExtTreeMap.getElem?_insert] at found
    split at found
    · rename_i same
      obtain rfl := Std.LawfulEqCmp.compare_eq_iff_eq.mp same
      cases found
      exact ⟨by simp, .inr ⟨old, items, full, rfl, by simp⟩⟩
    · rename_i other
      simpa [Std.ExtTreeMap.getElem?_insert, other] using tracks.held k v found

theorem tracksFlash {values anew left : Values} (tracks : Tracks values anew left) (value inkey : Bytes) :
    Tracks (editValues store values (.addFlash value inkey)) (editValues store anew (.addFlash value inkey))
      (outlive store left (.addFlash value inkey)) := by
  rw [flashedValues, flashedValues]
  simp only [outlive]
  cases found : left[flashKeyOf store inkey]? with
  | none =>
    have same : itemsAt values (flashKeyOf store inkey) = itemsAt anew (flashKeyOf store inkey) := by
      rw [itemsAt, itemsAt, tracks.apart _ found]
    have step := tracksInsert tracks (flashKeyOf store inkey)
      (dumpFlashArray ((itemsAt anew (flashKeyOf store inkey)).2 ++ [value]))
    rw [eraseAbsent found] at step
    rw [same]
    exact step
  | some v =>
    obtain ⟨inValues, origin⟩ := tracks.held _ v found
    have items : itemsAt values (flashKeyOf store inkey) = parseFlashArray v := by
      rw [itemsAt, inValues]
      rfl
    rw [items]
    simp only
    rcases origin with absent | ⟨old, begun, full, dumped, inAnew⟩
    · rw [itemsAbsent absent]
      split
      · rename_i empty
        rw [empty]
        exact tracksInsert tracks _ _
      · rename_i full
        exact tracksGrow tracks full
    · have listed : (parseFlashArray v).2 = old ++ begun := by rw [dumped, parseDumpedFlash]
      rw [itemsDumped inAnew, listed, if_neg (fun empty => full (List.append_eq_nil_iff.mp empty).1),
        List.append_assoc]
      exact tracksGrow tracks full

theorem tracksRead {values anew left : Values} (tracks : Tracks values anew left) (inkey : Bytes) :
    Tracks (editValues store values (.flashes inkey)) (editValues store anew (.flashes inkey))
      (outlive store left (.flashes inkey)) := by
  rw [readValues, readValues]
  simp only [outlive]
  have erased := tracksErase tracks (flashKeyOf store inkey)
  cases found : left[flashKeyOf store inkey]? with
  | none =>
    rw [itemsAt, itemsAt, tracks.apart _ found]
    rw [eraseAbsent found] at erased
    simp only
    split
    · exact erased
    · exact tracks
  | some v =>
    obtain ⟨inValues, origin⟩ := tracks.held _ v found
    have items : itemsAt values (flashKeyOf store inkey) = parseFlashArray v := by
      rw [itemsAt, inValues]
      rfl
    rw [items]
    simp only
    rcases origin with absent | ⟨old, begun, _, dumped, inAnew⟩
    · rw [itemsAbsent absent]
      rw [eraseAbsent absent] at erased
      simp only [Bool.false_eq_true, if_false]
      split
      · exact erased
      · exact tracks
    · have listed : (parseFlashArray v).1 = true := by rw [dumped, parseDumpedFlash]
      rw [itemsDumped inAnew, listed]
      exact erased

theorem tracksEdit {values anew left : Values} (tracks : Tracks values anew left) (e : Edit) :
    Tracks (editValues store values e) (editValues store anew e) (outlive store left e) := by
  cases e with
  | set key value => exact tracksInsert tracks key value
  | delete key =>
    rw [deletedValues, deletedValues]
    exact tracksErase tracks key
  | clear =>
    rw [clearedValues, clearedValues]
    exact ⟨fun _ _ => rfl, fun k v found => by simp [outlive] at found⟩
  | addFlash value inkey => exact tracksFlash store tracks value inkey
  | flashes inkey => exact tracksRead store tracks inkey
  | setMaxAge seconds =>
    have still (kv : Values) : editValues store kv (.setMaxAge seconds) = kv := by
      simp only [editValues, edit, HttpSession.setMaxAge]
      split <;> rfl
    rw [still, still]
    exact tracks
  | destroy => exact tracks

theorem noSets {json : Bytes} {before after : World}
    (none : ∀ key other ttl, .set key other ttl ∉ commandsOf before after) : SetsOnly json before after :=
  fun key other ttl sent => absurd sent (none key other ttl)

theorem delSendsNoSet {before after world : World} {key : Bytes} (sent : world.sent = before.sent)
    (turn : world.turn = before.turn) (log : after.sent = (request env (.del key) world).2.sent)
    (json : Bytes) : SetsOnly json before after := by
  refine noSets fun other value ttl inLog => ?_
  rw [commandsRequest env sent turn log] at inLog
  split at inLog
  · exact nomatch List.mem_singleton.mp inLog
  · exact nomatch inLog

theorem setSends {before after world : World} {key json : Bytes} {ttl : Int}
    (sent : world.sent = before.sent) (turn : world.turn = before.turn)
    (log : after.sent = (request env (.set key json ttl) world).2.sent) (expected : Bytes) :
    SetsOnly expected before after ↔ (env.exchange before.turn ≠ none → expected = json) := by
  rw [SetsOnly, commandsRequest env sent turn log]
  cases found : env.exchange before.turn with
  | none => simp
  | some reply => simp [eq_comm]

theorem writingSends {s : Session} {w after : World}
    (log : after.sent = (request env (setCommand store (writing env s w)) (writeID env s w).2).2.sent)
    (json : Bytes) : SetsOnly json w after ↔
      (env.exchange w.turn ≠ none → json = dumpSessionJson s.mapValues) :=
  setSends env (writeIDSent env s w) (writeIDTurn env s w) log json

theorem savedSets {s : Session} {w : World} {result : Result} (saved : Saved store env s w result)
    (json : Bytes) : SetsOnly json w result.world ↔
      (Permitted s → SendsSet env s w → json = dumpSessionJson s.mapValues) := by
  cases saved with
  | clean clean =>
    refine iff_of_true (noSets (by simp [commandsOf])) fun permitted => ?_
    rw [permitted.dirty] at clean
    cases clean
  | skipped dirty unread =>
    exact iff_of_true (noSets (by simp [commandsOf])) fun permitted => absurd unread permitted.allowed
  | unnamed permitted gone unnamed =>
    exact iff_of_true (noSets (by simp [commandsOf, expiredSent])) fun _ sends => absurd gone sends.1
  | deleted permitted gone named replied =>
    exact iff_of_true (delSendsNoSet env rfl rfl rfl json) fun _ sends => absurd gone sends.1
  | keptKey permitted gone named failed =>
    exact iff_of_true (delSendsNoSet env rfl rfl rfl json) fun _ sends => absurd gone sends.1
  | stored permitted full acked =>
    refine (writingSends store env rfl json).trans ?_
    exact ⟨fun only _ sends => only sends.2, fun only found => only permitted ⟨full, found⟩⟩
  | unstored permitted full failed =>
    refine (writingSends store env rfl json).trans ?_
    exact ⟨fun only _ sends => only sends.2, fun only found => only permitted ⟨full, found⟩⟩

theorem saveSets (s : Session) (w : World) (json : Bytes) :
    SetsOnly json w (save store env s w).world ↔
      (Permitted s → SendsSet env s w → json = dumpSessionJson s.mapValues) :=
  savedSets store env (saveSaved store env s w) json

theorem rotateLog (s : Session) (w : World) : ∃ more : List Command, (rotate store env s w).world.sent =
    (save store env (rotated env s w) (newSessionID env w).2).world.sent ++ more ∧
    ∀ command ∈ more, command = .del (store.keyPrefix ++ s.sID) := by
  rw [rotateSaves]
  simp only
  split
  · exact ⟨[], by simp, by simp⟩
  · split
    · exact ⟨[], by simp, by simp⟩
    · rw [removeKeyWorld]
      exact requestLog env _ _

theorem rotateSets (s : Session) (w : World) (json : Bytes) :
    SetsOnly json w (rotate store env s w).world ↔
      (SendsSet env s w → json = dumpSessionJson s.mapValues) := by
  obtain ⟨more, log, only⟩ := rotateLog store env s w
  have inner := saveSets store env (rotated env s w) (newSessionID env w).2 json
  have permitted : Permitted (rotated env s w) := ⟨rfl, by simp [rotated]⟩
  have same : SetsOnly json w (rotate store env s w).world ↔
      SetsOnly json (newSessionID env w).2 (save store env (rotated env s w) (newSessionID env w).2).world := by
    have grown : w.sent.length ≤
        (save store env (rotated env s w) (newSessionID env w).2).world.sent.length :=
      (saveGrows store env (rotated env s w) (newSessionID env w).2).length_le
    simp only [SetsOnly, commandsOf, log, List.drop_append_of_le_length grown]
    refine forall₃_congr fun key other ttl => ?_
    have notMore : .set key other ttl ∉ more := fun inside => by cases only _ inside
    simp [notMore, newSessionID]
  rw [same, inner]
  exact ⟨fun sends => sends permitted, fun sends _ => sends⟩

theorem saveKeepsValues (s : Session) (w : World) : (save store env s w).session.mapValues = s.mapValues :=
  savedValues store env (saveSaved store env s w)

theorem rotateKeepsValues (s : Session) (w : World) : (rotate store env s w).session.mapValues = s.mapValues := by
  have inner : (save store env (rotated env s w) (newSessionID env w).2).session.mapValues = s.mapValues :=
    saveKeepsValues store env (rotated env s w) _
  rw [rotateSaves]
  simp only
  split
  · exact inner
  · split <;> exact inner

inductive Follows (values : Values) : Option Values → Option Values → Prop
  | off : Follows values none none
  | on {anew left} (tracks : Tracks values anew left) : Follows values (some anew) (some left)

theorem followsEdit {s : Session} {anew left : Option Values} (follows : Follows s.mapValues anew left)
    (e : Edit) : Follows (edit store s e).mapValues (anew.map (editValues store · e))
      (left.map (outlive store · e)) := by
  rw [editedValues]
  cases follows with
  | off => exact .off
  | on tracks => exact .on (tracksEdit store tracks e)

theorem followsRestart {s : Session} {saved : Result} {anew left : Option Values}
    (follows : Follows s.mapValues anew left) (same : saved.session.mapValues = s.mapValues) :
    Follows saved.session.mapValues (restart s saved (some ∅) anew) (restart s saved (some s.mapValues) left) := by
  rw [same]
  unfold restart
  split
  · exact .on (tracksStart s.mapValues)
  · exact follows

theorem followsSets {values : Values} {anew left : Option Values} (follows : Follows values anew left)
    (sends : Prop) : (∀ kv, anew = some kv → sends → dumpSessionJson kv = dumpSessionJson values) ↔
      (∀ kv, left = some kv → sends → kv = ∅) := by
  cases follows with
  | off => simp
  | on tracks =>
    simp only [Option.some.injEq, forall_eq']
    refine forall_congr' fun _ => ?_
    rw [← tracksEqual tracks]
    exact ⟨fun dumped => (dumpSessionInjective dumped).symm, fun same => by rw [same]⟩

theorem runGoneIff (calls : List Call) (s : Session) (w : World) (anew left : Option Values)
    (follows : Follows s.mapValues anew left) :
    StaysGone store env calls s w anew ↔ Settled store env calls s w left := by
  induction calls generalizing s w anew left with
  | nil => exact Iff.rfl
  | cons call rest ih =>
    cases call with
    | edit e => exact ih _ _ _ _ (followsEdit store follows e)
    | save =>
      have step := followsSets follows (Permitted s ∧ SendsSet env s w)
      simp only [and_imp] at step
      simp only [StaysGone, Settled, saveSets, step]
      rw [ih _ _ _ _ (followsRestart follows (saveKeepsValues store env s w))]
    | rotate =>
      have step := followsSets follows (SendsSet env s w)
      simp only [StaysGone, Settled, rotateSets, step]
      rw [ih _ _ _ _ (followsRestart follows (rotateKeepsValues store env s w))]

/- A request sends nothing of a destroyed session exactly when its handler has
removed or replaced all the old values before each later SET. -/
theorem destroyedGoneIff (calls : List Call) (s : Session) (w : World) :
    StaysGone store env calls s w none ↔ Settled store env calls s w none :=
  runGoneIff store env calls s w none none .off

end Run

def healthy : Environment := ⟨fun _ => some ⟨0, .status, bytes "OK"⟩, fun draw _ => draw.toUInt8⟩

def login : Edit := .set (bytes "user") (bytes "1")
def note : Edit := .set (bytes "note") (bytes "b")
def logout : List Call := [.edit login, .save, .edit .destroy, .save, .edit note, .save]

def loggedIn : Result := save defaultStore healthy (edit defaultStore .fresh login) .start
def loggedOut : Result :=
  save defaultStore healthy (edit defaultStore loggedIn.session .destroy) loggedIn.world
def noted : Result := save defaultStore healthy (edit defaultStore loggedOut.session note) loggedOut.world

def leakedSet : Command :=
  .set (defaultStore.keyPrefix ++ noted.session.sID) (bytes "\x7b\"note\":\"b\",\"user\":\"1\"\x7d") 2592000

theorem logoutLeaks :
    loggedOut.ok = true ∧ loggedOut.session.sID = [] ∧
    leakedSet ∈ commandsOf loggedOut.world noted.world ∧
    ¬ StaysGone defaultStore healthy logout .fresh .start none := by
  have sent : leakedSet ∈ commandsOf loggedOut.world noted.world := by decide
  refine ⟨by decide, by decide, sent, fun gone => ?_⟩
  have only := gone.2.2.1 (editValues defaultStore ∅ note) (by
    simp only [restart]
    rfl)
  exact absurd (only _ _ _ sent) (by decide)

end Uco.DestroyedSession
