import Uco.LoginSession
import Uco.DestroyedSession

/-! The web server of the repository: its endpoints behind the session store, the limiters and the
CSRF check, and runs of requests to it. Requests overlap; a run lists them in the order in which
they load their sessions, and a load may find whatever an earlier request stored under the key, or
nothing. -/
namespace Uco.Site
open SessionJson HttpSession DestroyedSession
open LoginSession (LoginRsp HttpLoginRsp kKeyVid kKeyUsername kCsrfKey decimal loginValues newToken
  establishLoginSession)

section Model

inductive Payload where
  | nothing
  | account (vid : UInt64) (username : Bytes)
  | username (username : Bytes)
  deriving DecidableEq, Repr

inductive Answer where
  | data (status : Nat) (contentType body : Bytes)
  | json (status : Nat) (code : Int) (msg : String) (body : Payload)
  | file (path : Bytes)
  | redirect (status : Nat) (location : Bytes)
  | status (code : Nat)
  deriving DecidableEq, Repr

inductive Exit where
  | returned (answer : Answer)
  | thrown (answer : Option Answer)
  deriving DecidableEq, Repr

/- For the statements only: tokens that were put into a session, checks that were passed, logins
and registrations that the service accepted, and names shown to their users. -/
inductive Event where
  | issued (token : Bytes)
  | passed (token : Bytes)
  | accepted (vid : UInt64) (username : Bytes)
  | shown (username : Bytes)
  deriving DecidableEq, Repr

structure Outcome where
  exit : Exit
  session : Session
  world : World
  events : List Event

abbrev Chain := Session → World → Outcome

def reply (answer : Answer) : Chain := fun s w => ⟨.returned answer,s,w,[]⟩

def abort (answer : Option Answer) : Chain := fun s w => ⟨.thrown answer,s,w,[]⟩

def Outcome.since (o : Outcome) (events : List Event) : Outcome := { o with events := o.events ++ events }

def applicationJson : Bytes := bytes "application/json"

def tooManyRequests : Answer := .data 429 applicationJson (bytes "\x7b\"code\":429,\"msg\":\"too many requests\"\x7d")

def limited (admitted : Bool) (rest : Chain) : Chain := if admitted then rest else abort (some tooManyRequests)

def limitedIfNew (admitted : Bool) (rest : Chain) : Chain := fun s w =>
  if s.isNew = false then rest s w else limited admitted rest s w

section Csrf
variable (store : SessionStore) (env : Environment) (rng : Nat → Bool)

def csrfBody (token : Bytes) : Bytes :=
  bytes "\x7b\"code\":0,\"msg\":\"ok\",\"body\":\x7b\"csrf_token\":\"" ++ token ++ bytes "\"\x7d\x7d"

def sessionIssue : Chain := fun s w =>
  if get s kCsrfKey = [] then
    let (token,w) := newToken env rng w
    let s := set s kCsrfKey token
    -- an anonymous session of this request lives for a short time only
    let s := if s.isNew then setMaxAge s store.maxAnonymousAge else s
    ⟨.returned (.data 200 applicationJson (csrfBody token)),s,w,[.issued token]⟩
  else reply (.data 200 applicationJson (csrfBody (get s kCsrfKey))) s w

def csrfRefusal : Answer := .data 403 applicationJson (bytes "\x7b\"code\":403,\"msg\":\"csrf check failed\"\x7d")

def sessionCheck (submitted : Bytes) (rest : Chain) : Chain := fun s w =>
  let expected := get s kCsrfKey
  let matches' : Bool := expected.length = submitted.length && expected = submitted
  if expected = [] || !matches' then abort (some csrfRefusal) s w
  else (rest s w).since [.passed submitted]

end Csrf

section Controller
variable (store : SessionStore) (env : Environment) (rng : Nat → Bool)

def requireAnonymous (rest : Chain) : Chain := fun s w =>
  if get s kKeyVid ≠ [] then
    abort (some (.data 409 applicationJson (bytes "\x7b\"code\":409,\"msg\":\"already logged in\"\x7d"))) s w
  else rest s w

def currentUser : Chain := fun s w =>
  if get s kKeyVid = [] || get s kKeyUsername = [] then reply (.json 401 401 "unauthorized" .nothing) s w
  else ⟨.returned (.json 200 0 "ok" (.username (get s kKeyUsername))),s,w,[.shown (get s kKeyUsername)]⟩

def notice (name value path : Bytes) (w : World) : World :=
  { w with cookies := w.cookies ++ [⟨name,value,60,path,[],false,false⟩] }

def anonymousPage (page : Bytes) : Chain := fun s w =>
  if get s kKeyVid ≠ [] then
    reply (.redirect 302 (bytes "/welcome")) s
      (notice (bytes "welcome_notice") (bytes "already_logged_in") (bytes "/welcome") w)
  else reply (.file page) s w

def registerPage : Chain := anonymousPage (bytes "register.html")

def loginPage : Chain := anonymousPage (bytes "login.html")

def welcomePage : Chain := fun s w =>
  if get s kKeyVid = [] then
    reply (.redirect 302 (bytes "/login")) s (notice (bytes "login_notice") (bytes "not_logged_in") (bytes "/login") w)
  else reply (.file (bytes "welcome.html")) s w

def accountBody (vid : UInt64) (username : Bytes) : Payload :=
  if vid ≠ 0 ∨ username ≠ [] then .account vid username else .nothing

def credentials (form : Option Values) (rest : Bytes → Bytes → Chain) : Chain :=
  match form with
  | none => abort (some (.status 400))
  | some fields =>
    match fields[bytes "username"]?, fields[bytes "password"]? with
    | some username, some password => rest username password
    | _, _ => reply (.json 400 400 "missing field" .nothing)

def login (form : Option Values) (service : Bytes → Bytes → Option LoginRsp) : Chain :=
  credentials form fun username password s w =>
    match service username password with
    | none => abort none s w
    | some rsp =>
      if rsp.ret = 0 then
        let result := establishLoginSession store env rng s rsp.vid rsp.username w
        let events := [.issued (newToken env rng w).1,.accepted rsp.vid rsp.username]
        if result.ok = false then
          ⟨.returned (.json 500 500 "internal error" .nothing),result.session,result.world,events⟩
        else
          ⟨.returned (.json 200 0 "ok" (accountBody rsp.vid rsp.username)),result.session,result.world,events⟩
      else if rsp.ret = 1 ∨ rsp.ret = 2 then reply (.json 401 401 "wrong username or password" .nothing) s w
      else reply (.json 500 500 "internal error" .nothing) s w

def Answered : Option HttpLoginRsp → Exit → Prop
  | none, .thrown _ => True
  | some rsp, .returned answer => ∃ msg body, answer = .json rsp.status rsp.code msg body ∧ rsp.msg = bytes msg ∧
      body = (match rsp.body with | some (vid,username) => .account vid username | none => .nothing)
  | _, _ => False

/- LoginSession models the same login without the events. -/
theorem loginSame (form : Option Values) (service : Bytes → Bytes → Option LoginRsp) (s : Session) (w : World) :
    Answered (LoginSession.login store env rng form service s w).1 (login store env rng form service s w).exit ∧
    (login store env rng form service s w).session = (LoginSession.login store env rng form service s w).2.1 ∧
    (login store env rng form service s w).world = (LoginSession.login store env rng form service s w).2.2 := by
  have same (status : Nat) (code : Int) (msg : String) (vid : UInt64) (username : Bytes) :
      Answered (some (LoginSession.makeLoginResp status code msg vid username))
        (.returned (.json status code msg (accountBody vid username))) := by
    refine ⟨msg,_,rfl,rfl,?_⟩
    unfold accountBody LoginSession.makeLoginResp
    split <;> rfl
  cases form with
  | none => exact ⟨trivial,rfl,rfl⟩
  | some fields =>
    simp only [login, credentials, LoginSession.login]
    cases fields[bytes "username"]? with
    | none => exact ⟨same _ _ _ 0 [],rfl,rfl⟩
    | some username =>
      cases fields[bytes "password"]? with
      | none => exact ⟨same _ _ _ 0 [],rfl,rfl⟩
      | some password =>
        dsimp only
        cases service username password with
        | none => exact ⟨trivial,rfl,rfl⟩
        | some rsp =>
          dsimp only
          split
          · split
            · exact ⟨same _ _ _ 0 [],rfl,rfl⟩
            · exact ⟨same _ _ _ _ _,rfl,rfl⟩
          · split <;> exact ⟨same _ _ _ 0 [],rfl,rfl⟩

def register (form : Option Values) (service : Bytes → Bytes → Option LoginRsp) : Chain :=
  credentials form fun username password s w =>
    match service username password with
    | none => abort none s w
    | some rsp =>
      if rsp.ret = 0 then
        let result := establishLoginSession store env rng s rsp.vid rsp.username w
        let events := [.issued (newToken env rng w).1,.accepted rsp.vid rsp.username]
        if result.ok = false then
          -- the account exists: the anonymous session goes, and the user logs in by hand
          ⟨.returned (.json 200 1 "注册成功, 请登录" (accountBody rsp.vid rsp.username)),destroy result.session,
            result.world,events⟩
        else
          ⟨.returned (.json 200 0 "ok" (accountBody rsp.vid rsp.username)),result.session,result.world,events⟩
      else if rsp.ret = 1 then reply (.json 409 409 "用户名已被占用" .nothing) s w
      else if rsp.ret = 2 then reply (.json 400 400 "用户名或密码格式不符合要求" .nothing) s w
      else if rsp.ret = 3 then reply (.json 400 400 "密码过于简单, 请更换" .nothing) s w
      else reply (.json 500 500 "internal error" .nothing) s w

def logout : Chain := fun s w => reply (.json 200 0 "ok" .nothing) (destroy s) w

def userNameForKey (form : Option Values) (rest : Chain) : Chain :=
  match form with
  | none => abort (some (.status 400))
  | some fields =>
    match fields[bytes "username"]? with
    | none => abort (some (.status 400))
    | some username => if username = [] then abort (some (.status 400)) else rest

end Controller

inductive Endpoint where
  | me | registerPage | loginPage | welcomePage | csrf | login | register | logout
  deriving DecidableEq, Repr

/- A request with all that happens to it: what the limiters decide, what the services answer, the
replies of Redis and the random draws. -/
structure Request where
  cookie : Bytes
  header : Bytes
  endpoint : Endpoint
  form : Option Values
  ipAdmitted : Bool
  sessionAdmitted : Bool
  accountAdmitted : Bool
  loginService : Bytes → Bytes → Option LoginRsp
  registerService : Bytes → Bytes → Option LoginRsp
  env : Environment
  rng : Nat → Bool

section Requests
variable (store : SessionStore) (r : Request)

def behindSessions : Chain :=
  let protect (rest : Chain) : Chain := limited r.sessionAdmitted (sessionCheck r.header rest)
  match r.endpoint with
  | .me => currentUser
  | .registerPage => registerPage
  | .loginPage => loginPage
  | .welcomePage => welcomePage
  | .csrf => limitedIfNew r.ipAdmitted (sessionIssue store r.env r.rng)
  | .login =>
    protect (userNameForKey r.form (limited r.accountAdmitted (login store r.env r.rng r.form r.loginService)))
  | .register => protect (requireAnonymous (register store r.env r.rng r.form r.registerService))
  | .logout => protect logout

def Endpoint.posts : Endpoint → Bool
  | .login | .register | .logout => true
  | _ => false

def blocked : Bool := r.endpoint.posts && !r.ipAdmitted

def loaded : Session × World := initLoad store r.env r.cookie .start

def outcome : Outcome := behindSessions store r (loaded store r).1 (loaded store r).2

def Exit.answer : Exit → Option Answer
  | .returned answer => some answer
  | .thrown _ => none

def serve : Handled Answer :=
  sessions store r.env r.cookie (fun s w =>
    ((behindSessions store r s w).exit.answer,(behindSessions store r s w).session,(behindSessions store r s w).world)) .start

structure History where
  sent : List Command
  events : List Event

def History.extend (h : History) : History :=
  if blocked r then h else ⟨h.sent ++ (serve store r).world.sent,(outcome store r).events ++ h.events⟩

def Honest (h : History) : Prop :=
  ∀ id reply, parseSignedCookie store r.cookie = some id → r.env.exchange 0 = some reply → reply.retCode = 0 →
    reply.type ≠ .nil → ∃ ttl, .set (store.keyPrefix ++ id) reply.str ttl ∈ h.sent

end Requests

inductive Run (store : SessionStore) : History → Prop where
  | start : Run store ⟨[],[]⟩
  | request {h} (run : Run store h) (r : Request) (honest : Honest store r h) : Run store (h.extend store r)

end Model

def Justified (before : List Event) : Event → Prop
  | .issued _ => True
  | .passed token => token ≠ [] ∧ .issued token ∈ before
  | .accepted _ _ => ∃ token, before.head? = some (.passed token)
  | .shown username => ∃ vid, .accepted vid username ∈ before

def Sound : List Event → Prop
  | [] => True
  | event :: before => Justified before event ∧ Sound before

theorem soundAt {later before : List Event} {event : Event} (sound : Sound (later ++ event :: before)) :
    Justified before event ∧ Sound before := by
  induction later with
  | nil => exact sound
  | cons _ rest ih => exact ih sound.2

structure Backed (events : List Event) (kv : Values) : Prop where
  token : ∀ t, kv[kCsrfKey]? = some t → .issued t ∈ events
  login : ∀ v, kv[kKeyVid]? = some v → ∃ username, kv[kKeyUsername]? = some username ∧
    ∃ vid, .accepted vid username ∈ events

theorem backedEmpty (events : List Event) : Backed events ∅ := ⟨by simp,by simp⟩

theorem Backed.later {before events : List Event} {kv : Values} (backed : Backed before kv)
    (kept : ∀ event ∈ before, event ∈ events) : Backed events kv := by
  refine ⟨fun t has => kept _ (backed.token t has),fun v has => ?_⟩
  obtain ⟨username,named,vid,was⟩ := backed.login v has
  exact ⟨username,named,vid,kept _ was⟩

theorem keysDiffer : compare kCsrfKey kKeyVid ≠ .eq ∧ compare kCsrfKey kKeyUsername ≠ .eq ∧
    compare kKeyUsername kKeyVid ≠ .eq := by decide

theorem backedToken {before : List Event} {kv : Values} (backed : Backed before kv) (token : Bytes) :
    Backed (.issued token :: before) (kv.insert kCsrfKey token) := by
  obtain ⟨vidKey,nameKey,_⟩ := keysDiffer
  refine ⟨fun t has => ?_,fun v has => ?_⟩
  · rw [Std.ExtTreeMap.getElem?_insert_self] at has
    cases has
    exact List.mem_cons_self
  · rw [Std.ExtTreeMap.getElem?_insert,if_neg vidKey] at has
    obtain ⟨username,named,vid,was⟩ := backed.login v has
    refine ⟨username,?_,vid,List.mem_cons_of_mem _ was⟩
    rw [Std.ExtTreeMap.getElem?_insert,if_neg nameKey]
    exact named

theorem backedLogin (before : List Event) (s : Session) (vid : UInt64) (username token : Bytes) :
    Backed (.issued token :: .accepted vid username :: before) (loginValues s vid username token).mapValues := by
  obtain ⟨_,nameKey,_⟩ := keysDiffer
  refine ⟨fun t has => ?_,fun v _ => ⟨username,?_,vid,by simp⟩⟩
  · simp only [loginValues,HttpSession.set,Std.ExtTreeMap.getElem?_insert_self] at has
    cases has
    exact List.mem_cons_self
  · simp only [loginValues,HttpSession.set,Std.ExtTreeMap.getElem?_insert,nameKey,if_false]
    simp

def Stored (events : List Event) (sent : List Command) : Prop :=
  ∀ key json ttl, .set key json ttl ∈ sent → ∃ kv, json = dumpSessionJson kv ∧ Backed events kv

theorem Stored.later {before events : List Event} {sent : List Command} (stored : Stored before sent)
    (kept : ∀ event ∈ before, event ∈ events) : Stored events sent := by
  intro key json ttl inLog
  obtain ⟨kv,dumped,backed⟩ := stored key json ttl inLog
  exact ⟨kv,dumped,backed.later kept⟩

theorem storedAppend {events : List Event} {first second : List Command} (left : Stored events first)
    (right : Stored events second) : Stored events (first ++ second) := by
  intro key json ttl inLog
  rcases List.mem_append.mp inLog with inFirst | inSecond
  · exact left key json ttl inFirst
  · exact right key json ttl inSecond

section Writes
variable (store : SessionStore) (env : Environment)

theorem storedGrown {events : List Event} {kv : Values} {before after : World}
    (stored : Stored events before.sent) (grown : before.sent <+: after.sent) (backed : Backed events kv)
    (only : SetsOnly (dumpSessionJson kv) before after) : Stored events after.sent := by
  obtain ⟨more,log⟩ := grown
  have added : commandsOf before after = more := by rw [commandsOf,← log,List.drop_left]
  rw [← log]
  refine storedAppend stored fun key json ttl inMore => ⟨kv,?_,backed⟩
  exact only key json ttl (added ▸ inMore)

theorem storedSave {events : List Event} {s : Session} {w : World} (stored : Stored events w.sent)
    (backed : Backed events s.mapValues) : Stored events (save store env s w).world.sent :=
  storedGrown stored (saveGrows store env s w) backed
    ((saveSets store env s w _).mpr fun _ _ => rfl)

theorem rotateGrows (s : Session) (w : World) : w.sent <+: (rotate store env s w).world.sent := by
  obtain ⟨more,log,_⟩ := rotateLog store env s w
  rw [log]
  exact (saveGrows store env (rotated env s w) (newSessionID env w).2).trans (List.prefix_append _ _)

theorem storedRotate {events : List Event} {s : Session} {w : World} (stored : Stored events w.sent)
    (backed : Backed events s.mapValues) : Stored events (rotate store env s w).world.sent :=
  storedGrown stored (rotateGrows store env s w) backed
    ((rotateSets store env s w _).mpr fun _ => rfl)

theorem storedAutoSave {events : List Event} {s : Session} {w : World} (stored : Stored events w.sent)
    (backed : Backed events s.mapValues) : Stored events (autoSaveWorld store env s w).sent := by
  unfold autoSaveWorld
  split
  · exact storedSave store env stored backed
  · exact stored

end Writes

/- What a chain leaves behind when it starts after the events `before`. -/
structure Kept (before : List Event) (o : Outcome) : Prop where
  sound : Sound (o.events ++ before)
  backed : Backed (o.events ++ before) o.session.mapValues
  stored : Stored (o.events ++ before) o.world.sent

def Keeps (before : List Event) (chain : Chain) : Prop :=
  ∀ s w, Sound before → Backed before s.mapValues → Stored before w.sent → Kept before (chain s w)

theorem keepsReply (before : List Event) (answer : Answer) : Keeps before (reply answer) :=
  fun _ _ sound backed stored => ⟨sound,backed,stored⟩

theorem keepsAbort (before : List Event) (answer : Option Answer) : Keeps before (abort answer) :=
  fun _ _ sound backed stored => ⟨sound,backed,stored⟩

theorem keepsLimited {before : List Event} {rest : Chain} (keeps : Keeps before rest) (admitted : Bool) :
    Keeps before (limited admitted rest) := by
  unfold limited
  split
  · exact keeps
  · exact keepsAbort before _

theorem keepsLimitedIfNew {before : List Event} {rest : Chain} (keeps : Keeps before rest) (admitted : Bool) :
    Keeps before (limitedIfNew admitted rest) := by
  intro s w
  unfold limitedIfNew
  split
  · exact keeps s w
  · exact keepsLimited keeps admitted s w

theorem keepsCheck {before : List Event} {submitted : Bytes} {rest : Chain}
    (keeps : Keeps (.passed submitted :: before) rest) : Keeps before (sessionCheck submitted rest) := by
  intro s w sound backed stored
  unfold sessionCheck
  simp only
  split
  · exact keepsAbort before _ s w sound backed stored
  · rename_i passes
    simp only [Bool.or_eq_true,decide_eq_true_eq,Bool.not_eq_true',Bool.and_eq_false_iff,decide_eq_false_iff_not,
      not_or,not_not] at passes
    obtain ⟨some,_,same⟩ := passes
    have held : s.mapValues[kCsrfKey]? = Option.some submitted := by
      rw [← same]
      cases found : s.mapValues[kCsrfKey]? with
      | none => simp [HttpSession.get,found] at some
      | some token => simp [HttpSession.get,found]
    have later : ∀ event ∈ before, event ∈ .passed submitted :: before := fun _ => List.mem_cons_of_mem _
    obtain ⟨sound',backed',stored'⟩ := keeps s w
      ⟨⟨same ▸ some,backed.token _ held⟩,sound⟩ (backed.later later) (stored.later later)
    refine ⟨?_,?_,?_⟩ <;> simpa [Outcome.since] using ‹_›

section Handlers
variable (store : SessionStore) (env : Environment) (rng : Nat → Bool)

theorem keepsIssue (before : List Event) : Keeps before (sessionIssue store env rng) := by
  intro s w sound backed stored
  unfold sessionIssue
  split
  · have later (token : Bytes) : ∀ event ∈ before, event ∈ .issued token :: before := fun _ => List.mem_cons_of_mem _
    refine ⟨⟨trivial,sound⟩,?_,?_⟩
    · have written := backedToken backed (newToken env rng w).1
      simp only [List.cons_append,List.nil_append]
      split
      · unfold setMaxAge
        split <;> exact written
      · exact written
    · exact stored.later (later _)
  · exact keepsReply before _ s w sound backed stored

theorem keepsRequireAnonymous {before : List Event} {rest : Chain} (keeps : Keeps before rest) :
    Keeps before (requireAnonymous rest) := by
  intro s w
  unfold requireAnonymous
  split
  · exact keepsAbort before _ s w
  · exact keeps s w

theorem keepsCurrentUser (before : List Event) : Keeps before currentUser := by
  intro s w sound backed stored
  unfold currentUser
  split
  · exact keepsReply before _ s w sound backed stored
  · rename_i present
    simp only [Bool.or_eq_true,decide_eq_true_eq,not_or] at present
    have named : ∃ vid, .accepted vid (get s kKeyUsername) ∈ before := by
      cases found : s.mapValues[kKeyVid]? with
      | none => simp [HttpSession.get,found] at present
      | some v =>
        obtain ⟨username,has,vid,was⟩ := backed.login v found
        exact ⟨vid,by simpa [HttpSession.get,has] using was⟩
    have later : ∀ event ∈ before, event ∈ .shown (get s kKeyUsername) :: before := fun _ => List.mem_cons_of_mem _
    exact ⟨⟨named,sound⟩,backed.later later,stored.later later⟩

theorem keepsAnonymousPage (before : List Event) (page : Bytes) : Keeps before (anonymousPage page) := by
  intro s w sound backed stored
  unfold anonymousPage
  split
  · exact ⟨sound,backed,stored⟩
  · exact keepsReply before _ s w sound backed stored

theorem keepsWelcomePage (before : List Event) : Keeps before welcomePage := by
  intro s w sound backed stored
  unfold welcomePage
  split
  · exact ⟨sound,backed,stored⟩
  · exact keepsReply before _ s w sound backed stored

theorem keepsLogout (before : List Event) : Keeps before logout :=
  fun _ _ sound backed stored => ⟨sound,backed,stored⟩

theorem keepsUserName {before : List Event} {rest : Chain} (keeps : Keeps before rest) (form : Option Values) :
    Keeps before (userNameForKey form rest) := by
  unfold userNameForKey
  split
  · exact keepsAbort before _
  · split
    · exact keepsAbort before _
    · split
      · exact keepsAbort before _
      · exact keeps

theorem keepsCredentials {before : List Event} {rest : Bytes → Bytes → Chain}
    (keeps : ∀ username password, Keeps before (rest username password)) (form : Option Values) :
    Keeps before (credentials form rest) := by
  unfold credentials
  split
  · exact keepsAbort before _
  · split
    · exact keeps _ _
    · exact keepsReply before _

theorem keptEstablished {before : List Event} {passed : Bytes} {vid : UInt64} {username : Bytes}
    {s ended : Session} {w : World} (sound : Sound (.passed passed :: before))
    (stored : Stored (.passed passed :: before) w.sent) (exit : Exit)
    (same : ended.mapValues = (establishLoginSession store env rng s vid username w).session.mapValues) :
    Kept (.passed passed :: before) ⟨exit,ended,(establishLoginSession store env rng s vid username w).world,
      [.issued (newToken env rng w).1,.accepted vid username]⟩ := by
  have written := backedLogin (.passed passed :: before) s vid username (newToken env rng w).1
  refine ⟨⟨trivial,⟨passed,rfl⟩,sound⟩,?_,?_⟩
  · simp only [same,establishLoginSession,rotateKeepsValues]
    exact written
  · refine storedRotate store env ?_ written
    exact stored.later fun event inside => by simp [inside]

theorem keepsLogin (before : List Event) (token : Bytes) (form : Option Values)
    (service : Bytes → Bytes → Option LoginRsp) :
    Keeps (.passed token :: before) (login store env rng form service) := by
  refine keepsCredentials (fun username password s w sound backed stored => ?_) form
  split
  · exact keepsAbort _ _ s w sound backed stored
  · split
    · dsimp only
      split <;> exact keptEstablished store env rng sound stored _ rfl
    · split <;> exact keepsReply _ _ s w sound backed stored

theorem keepsRegister (before : List Event) (token : Bytes) (form : Option Values)
    (service : Bytes → Bytes → Option LoginRsp) :
    Keeps (.passed token :: before) (register store env rng form service) := by
  refine keepsCredentials (fun username password s w sound backed stored => ?_) form
  split
  · exact keepsAbort _ _ s w sound backed stored
  · split
    · dsimp only
      split <;> exact keptEstablished store env rng sound stored _ rfl
    · repeat' split
      all_goals exact keepsReply _ _ s w sound backed stored

end Handlers

section Runs
variable (store : SessionStore)

theorem keepsBehindSessions (r : Request) (before : List Event) : Keeps before (behindSessions store r) := by
  unfold behindSessions
  simp only
  split
  · exact keepsCurrentUser before
  · exact keepsAnonymousPage before _
  · exact keepsAnonymousPage before _
  · exact keepsWelcomePage before
  · exact keepsLimitedIfNew (keepsIssue store r.env r.rng before) _
  · exact keepsLimited (keepsCheck (keepsUserName (keepsLimited
      (keepsLogin store r.env r.rng before r.header r.form r.loginService) _) _)) _
  · exact keepsLimited (keepsCheck (keepsRequireAnonymous
      (keepsRegister store r.env r.rng before r.header r.form r.registerService))) _
  · exact keepsLimited (keepsCheck (keepsLogout _)) _

theorem loadedBacked {r : Request} {h : History} (honest : Honest store r h) (stored : Stored h.events h.sent) :
    Backed h.events (loaded store r).1.mapValues := by
  cases verified : parseSignedCookie store r.cookie with
  | none =>
    rw [loaded,initLoadUnverified store r.env verified]
    exact backedEmpty _
  | some id =>
    rw [loaded,initLoadSession store r.env verified,loadValues,request]
    cases found : r.env.exchange World.start.turn with
    | none => exact backedEmpty _
    | some reply =>
      simp only
      split
      · exact backedEmpty _
      · rename_i zero
        split
        · exact backedEmpty _
        · rename_i full
          obtain ⟨ttl,written⟩ := honest id reply verified found (not_not.mp zero) full
          obtain ⟨kv,dumped,backed⟩ := stored _ _ _ written
          rw [dumped,loadedSession,parseDumpedSession]
          exact backed

def Command.Reads (command : Command) : Prop :=
  (∃ key, command = .get key) ∨ ∃ key ttl, command = .expire key ttl

theorem loadedReads (r : Request) : ∀ command ∈ (loaded store r).2.sent, Command.Reads command := by
  have fetched (id : Bytes) : ∀ command ∈ (loadValues store r.env id .start).2.sent, Command.Reads command := by
    intro command inLog
    rw [loadValuesWorld] at inLog
    rcases requestSent r.env _ _ _ inLog with before | same
    · simp [World.start] at before
    · exact .inl ⟨_,same⟩
  intro command inLog
  unfold loaded initLoad at inLog
  split at inLog
  · simp [World.start] at inLog
  · split at inLog
    · simp [World.start] at inLog
    · simp only at inLog
      split at inLog
      · rw [touchTTLWorld] at inLog
        rcases requestSent r.env _ _ _ inLog with before | same
        · exact fetched _ _ before
        · exact .inr ⟨_,_,same⟩
      · exact fetched _ _ inLog

theorem serveThrown {r : Request} (thrown : (outcome store r).exit.answer = none) :
    (serve store r).world = (outcome store r).world := by
  unfold outcome loaded at thrown
  rw [serve,sessions,runChain]
  simp only [thrown]
  rfl

theorem serveReturned {r : Request} {answer : Answer} (returned : (outcome store r).exit.answer = some answer) :
    (serve store r).world = autoSaveWorld store r.env (outcome store r).session (outcome store r).world := by
  unfold outcome loaded at returned
  have ran : ((behindSessions store r (loaded store r).1 (loaded store r).2).exit.answer,
      (outcome store r).session,(outcome store r).world) =
      (some answer,(outcome store r).session,(outcome store r).world) := congrArg (·,_,_) returned
  exact runChainWorld store r.env ran

theorem extendKept {h : History} (r : Request) (honest : Honest store r h) (sound : Sound h.events)
    (stored : Stored h.events h.sent) :
    Sound (h.extend store r).events ∧ Stored (h.extend store r).events (h.extend store r).sent := by
  unfold History.extend
  split
  · exact ⟨sound,stored⟩
  · have unwritten : Stored h.events (loaded store r).2.sent := by
      intro key json ttl inLog
      rcases loadedReads store r _ inLog with ⟨_,same⟩ | ⟨_,_,same⟩ <;> cases same
    have kept : Kept h.events (outcome store r) := keepsBehindSessions store r h.events _ _ sound
      (loadedBacked store honest stored) unwritten
    refine ⟨kept.sound,storedAppend (stored.later fun event => List.mem_append_right _) ?_⟩
    cases ended : (outcome store r).exit.answer with
    | none =>
      rw [serveThrown store ended]
      exact kept.stored
    | some answer =>
      rw [serveReturned store ended]
      exact storedAutoSave store r.env kept.stored kept.backed

theorem runKept {h : History} (run : Run store h) : Sound h.events ∧ Stored h.events h.sent := by
  induction run with
  | start => exact ⟨trivial,fun key json ttl inLog => by simp at inLog⟩
  | request run r honest ih => exact extendKept store r honest ih.1 ih.2

theorem refusedOutcome {r : Request} (posts : r.endpoint.posts = true)
    (stranger : r.header ≠ [] → get (loaded store r).1 kCsrfKey ≠ r.header) :
    ∃ answer, (answer = tooManyRequests ∨ answer = csrfRefusal) ∧
      outcome store r = ⟨.thrown (some answer),(loaded store r).1,(loaded store r).2,[]⟩ := by
  have protected' (rest : Chain) : ∃ answer, (answer = tooManyRequests ∨ answer = csrfRefusal) ∧
      limited r.sessionAdmitted (sessionCheck r.header rest) (loaded store r).1 (loaded store r).2 =
        ⟨.thrown (some answer),(loaded store r).1,(loaded store r).2,[]⟩ := by
    unfold limited
    split
    · refine ⟨csrfRefusal,.inr rfl,?_⟩
      unfold sessionCheck
      simp only
      rw [if_pos]
      · rfl
      · by_cases empty : get (loaded store r).1 kCsrfKey = []
        · simp [empty]
        · have differ : get (loaded store r).1 kCsrfKey ≠ r.header := by
            intro same
            exact stranger (same ▸ empty) same
          simp [differ]
    · exact ⟨tooManyRequests,.inl rfl,rfl⟩
  unfold outcome behindSessions
  cases chosen : r.endpoint with
  | login => exact protected' _
  | register => exact protected' _
  | logout => exact protected' _
  | _ => simp [chosen,Endpoint.posts] at posts

end Runs

def returningID : Bytes := bytes "ffffffffffffffffffffffffffffffff"

def siteStore : SessionStore := { defaultStore with
  signID := fun id => if id = returningID
    then bytes "a8bb685c56c0f6b4e745c752d4e421c6bf89fe6b60500efaebf5af15b5cbdb25"
    else defaultStore.signID id }

def signedCookie (id : Bytes) : Bytes := id ++ dotByte :: siteStore.signID id

/- Redis finds `json` under the key of the cookie, and all else succeeds. -/
def answering (json : Bytes) (random : Nat → Nat → UInt8) : Environment :=
  ⟨fun n => some (if n = 0 then ⟨0,.string,json⟩ else LoginSession.ok),random⟩

def visitorToken : Bytes := hexOf (List.replicate 32 0x5a)

def annVisits : Request where
  cookie := []
  header := []
  endpoint := .csrf
  form := LoginSession.visitorForm
  ipAdmitted := true
  sessionAdmitted := true
  accountAdmitted := true
  loginService := LoginSession.annLogsIn
  registerService := fun _ _ => none
  env := ⟨fun _ => some LoginSession.ok,fun draw i => if draw = 0 then 0x5a
    else [0x01,0x23,0x45,0x67,0x89,0xab,0xcd,0xef].getD (i % 8) 0⟩
  rng := fun _ => true

def visitorValues : Values := (∅ : Values).insert kCsrfKey visitorToken

def annEnters : Request := { annVisits with
  cookie := signedCookie visitorID
  header := visitorToken
  endpoint := .login
  env := answering (dumpSessionJson visitorValues) fun _ _ => 0xff }

def annValues : Values :=
  ((visitorValues.insert kKeyVid (decimal 7)).insert kKeyUsername (bytes "ann")).insert kCsrfKey
    (hexOf (List.replicate 32 0xff))

def annAsks : Request := { annVisits with
  cookie := signedCookie returningID
  endpoint := .me
  env := answering (dumpSessionJson annValues) fun _ _ => 0 }

def visited : History := History.extend siteStore annVisits ⟨[],[]⟩
def entered : History := visited.extend siteStore annEnters
def asked : History := entered.extend siteStore annAsks

theorem honestFind {r : Request} {h : History} (id : Bytes) (ttl : Int) {json : Bytes}
    {random : Nat → Nat → UInt8} (verified : parseSignedCookie siteStore r.cookie = some id)
    (env : r.env = answering json random) (written : .set (siteStore.keyPrefix ++ id) json ttl ∈ h.sent) : Honest siteStore r h := by
  intro other reply verified' found _ _
  cases verified.symm.trans verified'
  rw [env] at found
  cases found
  exact ⟨ttl,written⟩

theorem visitedRun : Run siteStore visited := .request .start annVisits fun id _ verified => by
  have none : parseSignedCookie siteStore [] = Option.none := by decide
  exact absurd (none.symm.trans verified) (by simp)

theorem enteredRun : Run siteStore entered :=
  .request visitedRun annEnters (honestFind visitorID 600 (by decide) rfl (by decide))

theorem askedRun : Run siteStore asked :=
  .request enteredRun annAsks (honestFind returningID 2592000 (by decide) rfl (by decide))

/- A name is only shown where the service accepted it behind a check, of a token that was issued before. -/
theorem shownLoggedIn {store : SessionStore} {h : History} (run : Run store h) {later before : List Event}
    {username : Bytes} (shown : h.events = later ++ .shown username :: before) :
    ∃ between token earlier vid, before = between ++ .accepted vid username :: .passed token :: earlier ∧
      token ≠ [] ∧ .issued token ∈ earlier := by
  have sound := (runKept store run).1
  rw [shown] at sound
  obtain ⟨⟨vid,accepted⟩,sound⟩ := soundAt sound
  obtain ⟨between,rest,rfl⟩ := List.append_of_mem accepted
  obtain ⟨⟨token,first⟩,sound⟩ := soundAt sound
  cases rest with
  | nil => cases first
  | cons event earlier =>
    cases first
    exact ⟨between,token,earlier,vid,rfl,sound.1⟩

theorem annShown : ∃ between token earlier vid,
    asked.events.tail = between ++ .accepted vid (bytes "ann") :: .passed token :: earlier ∧
      token ≠ [] ∧ .issued token ∈ earlier :=
  shownLoggedIn askedRun (show asked.events = [] ++ .shown (bytes "ann") :: asked.events.tail by decide +kernel)

/- A post with a token that nobody was given is answered 403 or 429 and changes nothing: no event, no
key set or deleted. -/
theorem forgeryRefused {store : SessionStore} {h : History} (run : Run store h) {r : Request}
    (honest : Honest store r h) (posts : r.endpoint.posts = true) (forged : .issued r.header ∉ h.events) :
    (blocked r = true ∨ (outcome store r).exit = .thrown (some tooManyRequests) ∨
      (outcome store r).exit = .thrown (some csrfRefusal)) ∧
    (h.extend store r).events = h.events ∧
    ∀ command ∈ (h.extend store r).sent, command ∈ h.sent ∨ Command.Reads command := by
  have backed := loadedBacked store honest (runKept store run).2
  obtain ⟨answer,which,ended⟩ := refusedOutcome store posts fun some same => forged (backed.token _ (by
    cases found : (loaded store r).1.mapValues[kCsrfKey]? with
    | none => simp [HttpSession.get,found,some.symm] at same
    | some token => simpa [HttpSession.get,found] using same))
  have world : (serve store r).world = (loaded store r).2 := by
    rw [serveThrown store (by rw [ended]; rfl),ended]
  refine ⟨?_,?_⟩
  · rw [ended]
    rcases which with rfl | rfl
    · exact .inr (.inl rfl)
    · exact .inr (.inr rfl)
  · unfold History.extend
    split
    · exact ⟨rfl,fun command => .inl⟩
    · rw [ended,world]
      exact ⟨rfl,fun command inLog => (List.mem_append.mp inLog).imp_right (loadedReads store r command)⟩

def crossSite : Request := { annAsks with
  header := bytes "5a"
  endpoint := .logout }

theorem crossSiteRefused :
    (blocked crossSite = true ∨ (outcome siteStore crossSite).exit = .thrown (some tooManyRequests) ∨
      (outcome siteStore crossSite).exit = .thrown (some csrfRefusal)) ∧
    (entered.extend siteStore crossSite).events = entered.events ∧
    ∀ command ∈ (entered.extend siteStore crossSite).sent, command ∈ entered.sent ∨ Command.Reads command :=
  forgeryRefused enteredRun (honestFind returningID 2592000 (by decide) rfl (by decide))
    (by decide) (by decide)

end Uco.Site
