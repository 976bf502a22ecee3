import Uco.Interleaving

/-! ulock clients and the Redis server that keeps the key. Every client has one
connection at a time; what was sent on a connection is executed, and what was answered is
read, at any later time or never. Acquire is a loop of TryAcquire and the watchdog calls
do_renew, so both are calls of the clients here. Close is left out. -/
namespace Uco.DistributedLock
open Interleaving

structure Token (K : Type*) where
  owner : K
  serial : ℕ
  deriving DecidableEq, Repr

inductive Command (K : Type*) where
  | set (token : Token K)
  | renew (token : Token K)
  | release (token : Token K)
  deriving DecidableEq, Repr

inductive Reply where
  | ok
  | nil
  | integer (n : ℕ)
  | error
  deriving DecidableEq, Repr

abbrev Key (K : Type*) := Option (Token K × ℕ)

def execute {K : Type*} [DecidableEq K] (ttl : K → ℕ) (now : ℕ) (key : Key K) : Command K → Key K × Reply
  | .set token => if key = none then (some (token,now + ttl token.owner),.ok) else (key,.nil)
  | .renew token =>
    if key.map Prod.fst = some token then (some (token,now + ttl token.owner),.integer 1)
    else (key,.integer 0)
  | .release token => if key.map Prod.fst = some token then (none,.integer 1) else (key,.integer 0)

def Command.token {K : Type*} : Command K → Token K
  | .set token | .renew token | .release token => token

structure Wire (K : Type*) where
  client : Option K
  sent : List (Command K)
  answers : List Reply
  deriving DecidableEq, Repr

structure Conn where
  id : ℕ
  broken : Bool
  deriving DecidableEq, Repr

structure Client (K : Type*) where
  cmdMtx : Bool
  token : Option (Token K)
  serial : ℕ
  conn : Option Conn
  deriving DecidableEq, Repr

structure Shared (K : Type*) where
  now : ℕ
  key : Key K
  history : List (Option (Token K))
  client : K → Client K
  nextConn : ℕ
  wire : ℕ → Wire K

inductive Purpose (K : Type*) where
  | set (since : ℕ) (token : Token K)
  | renew (token : Token K)
  | release (token : Token K)
  deriving DecidableEq, Repr

def Purpose.command {K : Type*} : Purpose K → Command K
  | .set _ token => .set token
  | .renew token => .renew token
  | .release token => .release token

/- `wins` has executed co_return true, `returns` any other co_return. -/
inductive Pc (K : Type*) where
  | idle
  | waitTry (since : ℕ)
  | waitRenew
  | waitRelease
  | fast (since : ℕ)
  | connection (since : ℕ)
  | connect (since : ℕ)
  | renewToken
  | renewConnection (token : Token K)
  | releaseToken
  | releaseConnection (token : Token K)
  | command (purpose : Purpose K)
  | await (purpose : Purpose K) (id : ℕ)
  | replied (purpose : Purpose K) (reply : Option Reply)
  | wins (since : ℕ) (token : Token K)
  | returns (ok : Bool)
  deriving DecidableEq, Repr

structure Local (K : Type*) where
  client : K
  pc : Pc K
  deriving DecidableEq, Repr

variable {K : Type*} [DecidableEq K]

section Moves

def withKey (g : Shared K) (key : Key K) : Shared K :=
  {g with key := key, history := g.history ++ [key.map Prod.fst]}

def withClient (g : Shared K) (k : K) (s : Client K) : Shared K :=
  {g with client := Function.update g.client k s}

def withWire (g : Shared K) (id : ℕ) (w : Wire K) : Shared K :=
  {g with wire := Function.update g.wire id w}

def send (g : Shared K) (id : ℕ) (command : Command K) : Shared K :=
  withWire g id {g.wire id with sent := (g.wire id).sent ++ [command]}

inductive ServerMove (ttl : K → ℕ) : Shared K → Shared K → Prop where
  | tick {g} : ServerMove ttl g {g with now := g.now + 1}
  | expires {g token deadline} (held : g.key = some (token,deadline)) (past : deadline ≤ g.now) :
      ServerMove ttl g (withKey g none)
  | executes {g command rest} (id : ℕ) (first : (g.wire id).sent = command :: rest) : ServerMove ttl g
      (withWire (withKey g (execute ttl g.now g.key command).1) id
        {g.wire id with
          sent := rest, answers := (g.wire id).answers ++ [(execute ttl g.now g.key command).2]})
  | refuses {g command rest} (id : ℕ) (first : (g.wire id).sent = command :: rest) : ServerMove ttl g
      (withWire g id {g.wire id with sent := rest, answers := (g.wire id).answers ++ [.error]})

inductive GuardMove (k : K) : Shared K → Pc K → Shared K → Pc K → Prop where
  | callTry {g} : GuardMove k g .idle g (.waitTry (g.history.length - 1))
  | callRenew {g} : GuardMove k g .idle g .waitRenew
  | callRelease {g} : GuardMove k g .idle g .waitRelease
  | enterTry {g since} (free : (g.client k).cmdMtx = false) : GuardMove k g (.waitTry since)
      (withClient g k {g.client k with cmdMtx := true}) (.fast since)
  | enterRenew {g} (free : (g.client k).cmdMtx = false) : GuardMove k g .waitRenew
      (withClient g k {g.client k with cmdMtx := true}) .renewToken
  | enterRelease {g} (free : (g.client k).cmdMtx = false) : GuardMove k g .waitRelease
      (withClient g k {g.client k with cmdMtx := true}) .releaseToken
  | leave {g ok} : GuardMove k g (.returns ok) (withClient g k {g.client k with cmdMtx := false}) .idle
  | leaveWon {g since token} : GuardMove k g (.wins since token)
      (withClient g k {g.client k with cmdMtx := false}) .idle

inductive ConnMove (k : K) : Shared K → Pc K → Shared K → Pc K → Prop where
  | usable {g since id} (healthy : (g.client k).conn = some ⟨id,false⟩) : ConnMove k g (.connection since)
      (withClient g k {g.client k with serial := (g.client k).serial + 1})
      (.command (.set since ⟨k,(g.client k).serial⟩))
  | unusable {g since} (dead : ∀ id, (g.client k).conn ≠ some ⟨id,false⟩) : ConnMove k g (.connection since)
      (withClient g k {g.client k with conn := none}) (.connect since)
  | connects {g since} : ConnMove k g (.connect since)
      {withClient (withWire g g.nextConn ⟨some k,[],[]⟩) k
        {g.client k with serial := (g.client k).serial + 1, conn := some ⟨g.nextConn,false⟩} with
        nextConn := g.nextConn + 1}
      (.command (.set since ⟨k,(g.client k).serial⟩))
  | connectFails {g since} : ConnMove k g (.connect since) g (.returns false)
  | sends {g purpose id} (healthy : (g.client k).conn = some ⟨id,false⟩) :
      ConnMove k g (.command purpose) (send g id purpose.command) (.await purpose id)
  | sendFails {g purpose id} (delivered : Bool) (healthy : (g.client k).conn = some ⟨id,false⟩) :
      ConnMove k g (.command purpose)
      (withClient (if delivered then send g id purpose.command else g) k
        {g.client k with conn := some ⟨id,true⟩})
      (.replied purpose none)
  | reads {g purpose id reply rest} (first : (g.wire id).answers = reply :: rest) :
      ConnMove k g (.await purpose id) (withWire g id {g.wire id with answers := rest})
      (.replied purpose (some reply))
  | readFails {g purpose id} : ConnMove k g (.await purpose id)
      (withClient g k {g.client k with conn := some ⟨id,true⟩}) (.replied purpose none)

inductive CallMove (k : K) : Shared K → Pc K → Shared K → Pc K → Prop where
  | held {g since token} (cached : (g.client k).token = some token) :
      CallMove k g (.fast since) g (.wins since token)
  | notHeld {g since} (empty : (g.client k).token = none) : CallMove k g (.fast since) g (.connection since)
  | acquired {g since token} : CallMove k g (.replied (.set since token) (some .ok))
      (withClient g k {g.client k with token := some token}) (.wins since token)
  | refused {g since token reply} (other : reply ≠ some .ok) :
      CallMove k g (.replied (.set since token) reply) g (.returns false)
  | renewNothing {g} (empty : (g.client k).token = none) : CallMove k g .renewToken g (.returns false)
  | renewReads {g token} (cached : (g.client k).token = some token) :
      CallMove k g .renewToken g (.renewConnection token)
  | renewDead {g token} (dead : ∀ id, (g.client k).conn ≠ some ⟨id,false⟩) :
      CallMove k g (.renewConnection token) (withClient g k {g.client k with token := none}) (.returns false)
  | renewAsks {g token id} (healthy : (g.client k).conn = some ⟨id,false⟩) :
      CallMove k g (.renewConnection token) g (.command (.renew token))
  | renewed {g token} : CallMove k g (.replied (.renew token) (some (.integer 1))) g (.returns true)
  | lost {g token reply} (other : reply ≠ some (.integer 1)) : CallMove k g (.replied (.renew token) reply)
      (withClient g k {g.client k with token := none}) (.returns false)
  | releaseNothing {g} (empty : (g.client k).token = none) : CallMove k g .releaseToken g (.returns false)
  | releaseTakes {g token} (cached : (g.client k).token = some token) : CallMove k g .releaseToken
      (withClient g k {g.client k with token := none}) (.releaseConnection token)
  | releaseDead {g token} (dead : ∀ id, (g.client k).conn ≠ some ⟨id,false⟩) :
      CallMove k g (.releaseConnection token) g (.returns false)
  | releaseAsks {g token id} (healthy : (g.client k).conn = some ⟨id,false⟩) :
      CallMove k g (.releaseConnection token) g (.command (.release token))
  | released {g token reply} : CallMove k g (.replied (.release token) reply) g
      (.returns (reply = some (.integer 1)))

inductive Move (k : K) (g : Shared K) (p : Pc K) (g' : Shared K) (p' : Pc K) : Prop where
  | guard (taken : GuardMove k g p g' p')
  | conn (taken : ConnMove k g p g' p')
  | call (taken : CallMove k g p g' p')

def system (K : Type*) [DecidableEq K] (ttl : K → ℕ) : System (Shared K) (Local K) where
  solo := ServerMove ttl
  move g l g' l' := l'.client = l.client ∧ Move l.client g l.pc g' l'.pc

abbrev State (T K : Type*) := Config (Shared K) (Local K) T

def start {T : Type*} (of : T → K) : State T K :=
  ⟨⟨0,none,[none],fun _ => ⟨false,none,0,none⟩,0,fun _ => ⟨none,[],[]⟩⟩, fun t => ⟨of t,.idle⟩⟩

end Moves

section Invariants
variable {T : Type*}

def inside : Pc K → Prop
  | .idle | .waitTry _ | .waitRenew | .waitRelease => False
  | _ => True

def since : Pc K → ℕ
  | .waitTry n | .fast n | .connection n | .connect n | .wins n _ => n
  | .command (.set n _) | .await (.set n _) _ | .replied (.set n _) _ => n
  | _ => 0

def carries : Pc K → Option (Token K)
  | .renewConnection token | .releaseConnection token | .wins _ token => some token
  | .command purpose | .await purpose _ | .replied purpose _ => some purpose.command.token
  | _ => none

structure Guarded (c : State T K) : Prop where
  locked : ∀ t, inside (c.locals t).pc → (c.shared.client (c.locals t).client).cmdMtx = true
  alone : ∀ t u, inside (c.locals t).pc → inside (c.locals u).pc →
    (c.locals t).client = (c.locals u).client → t = u

structure Owned (c : State T K) : Prop where
  cached : ∀ k token, (c.shared.client k).token = some token → token.owner = k
  called : ∀ t token, carries (c.locals t).pc = some token → token.owner = (c.locals t).client
  sent : ∀ id, ∀ command ∈ (c.shared.wire id).sent, (c.shared.wire id).client = some command.token.owner

structure Timed (c : State T K) : Prop where
  current : c.shared.history.getLast? = some (c.shared.key.map Prod.fst)
  began : ∀ t, since (c.locals t).pc ≤ c.shared.history.length

def quiet (w : Wire K) : Prop := w.sent = [] ∧ w.answers = []

def expects (history : List (Option (Token K))) (w : Wire K) (purpose : Purpose K) : Prop :=
  w.sent = [purpose.command] ∧ w.answers = [] ∨
  ∃ reply, w.sent = [] ∧ w.answers = [reply] ∧
    ∀ n token, purpose = .set n token → reply = .ok → some token ∈ history.drop n

structure InSync (c : State T K) : Prop where
  conns : ∀ k conn, (c.shared.client k).conn = some conn →
    conn.id < c.shared.nextConn ∧ (c.shared.wire conn.id).client = some k
  unused : ∀ id, c.shared.nextConn ≤ id → quiet (c.shared.wire id)
  quiet : ∀ k id, (c.shared.client k).conn = some ⟨id,false⟩ →
    (∃ t purpose, (c.locals t).client = k ∧ (c.locals t).pc = .await purpose id) ∨
    quiet (c.shared.wire id)
  awaits : ∀ t purpose id, (c.locals t).pc = .await purpose id →
    (c.shared.client (c.locals t).client).conn = some ⟨id,false⟩ ∧
    expects c.shared.history (c.shared.wire id) purpose
  replied : ∀ t n token, (c.locals t).pc = .replied (.set n token) (some .ok) →
    some token ∈ c.shared.history.drop n

section Frames
variable {ttl : K → ℕ} {k : K} {g g' : Shared K} {p p' : Pc K}

theorem moveOthers (taken : Move k g p g' p') {j : K} (other : j ≠ k) : g'.client j = g.client j := by
  rcases taken with guard | conn | call
  · cases guard <;> simp [withClient, other]
  · cases conn with
    | sendFails delivered => cases delivered <;> simp [withClient, send, withWire, other]
    | _ => simp [withClient, send, withWire, other]
  · cases call <;> simp [withClient, other]

inductive Guarding (k : K) (g : Shared K) (p : Pc K) (g' : Shared K) (p' : Pc K) : Prop where
  | stays (before : inside p) (after : inside p')
      (same : (g'.client k).cmdMtx = (g.client k).cmdMtx)
  | enters (before : ¬inside p) (free : (g.client k).cmdMtx = false)
      (taken : (g'.client k).cmdMtx = true)
  | leaves (before : inside p) (after : ¬inside p')
  | waits (before : ¬inside p) (after : ¬inside p') (same : g'.client = g.client)

theorem moveGuarding (taken : Move k g p g' p') : Guarding k g p g' p' := by
  rcases taken with guard | conn | call
  · cases guard with
    | callTry => exact .waits id id rfl
    | callRenew => exact .waits id id rfl
    | callRelease => exact .waits id id rfl
    | enterTry free => exact .enters id free (by simp [withClient])
    | enterRenew free => exact .enters id free (by simp [withClient])
    | enterRelease free => exact .enters id free (by simp [withClient])
    | leave => exact .leaves trivial id
    | leaveWon => exact .leaves trivial id
  · cases conn with
    | sendFails delivered =>
      cases delivered <;> exact .stays trivial trivial (by simp [withClient, send, withWire])
    | _ => exact .stays trivial trivial (by simp [withClient, send, withWire])
  · cases call <;> exact .stays trivial trivial (by simp [withClient])

theorem serverClient (taken : ServerMove ttl g g') : g'.client = g.client ∧ g'.nextConn = g.nextConn := by
  cases taken <;> exact ⟨rfl,rfl⟩

theorem moveTimed (taken : Move k g p g' p') : g'.key = g.key ∧ g'.history = g.history ∧
    (since p' = since p ∨ since p' ≤ g.history.length) := by
  rcases taken with guard | conn | call
  · cases guard <;> exact ⟨rfl,rfl,by simp [since]⟩
  · cases conn with
    | sendFails delivered =>
      rename_i purpose _ _
      cases purpose <;> cases delivered <;> exact ⟨rfl,rfl,by simp [since]⟩
    | sends =>
      rename_i purpose _ _
      cases purpose <;> exact ⟨rfl,rfl,by simp [since]⟩
    | reads =>
      rename_i purpose _ _ _ _
      cases purpose <;> exact ⟨rfl,rfl,by simp [since]⟩
    | readFails =>
      rename_i purpose _
      cases purpose <;> exact ⟨rfl,rfl,by simp [since]⟩
    | _ => exact ⟨rfl,rfl,by simp [since]⟩
  · cases call <;> exact ⟨rfl,rfl,by simp [since]⟩

theorem serverTimed (taken : ServerMove ttl g g') : ∃ more, g'.history = g.history ++ more ∧
    (more = [] ∧ g'.key = g.key ∨ more = [g'.key.map Prod.fst]) := by
  cases taken with
  | tick => exact ⟨[],(List.append_nil _).symm,.inl ⟨rfl,rfl⟩⟩
  | expires held past => exact ⟨_,rfl,.inr rfl⟩
  | executes id first => exact ⟨_,rfl,.inr rfl⟩
  | refuses id first => exact ⟨[],(List.append_nil _).symm,.inl ⟨rfl,rfl⟩⟩

structure Unwired (k : K) (g : Shared K) (p : Pc K) (g' : Shared K) (p' : Pc K) : Prop where
  conn : (g'.client k).conn = (g.client k).conn
  wire : g'.wire = g.wire
  nextConn : g'.nextConn = g.nextConn
  before : ∀ purpose id, p ≠ .await purpose id
  after : ∀ purpose id, p' ≠ .await purpose id
  silent : ∀ purpose reply, p' ≠ .replied purpose reply

theorem guardUnwired (taken : GuardMove k g p g' p') : Unwired k g p g' p' := by
  cases taken <;> exact ⟨by simp [withClient],rfl,rfl,nofun,nofun,nofun⟩

theorem connInside (taken : ConnMove k g p g' p') : inside p := by
  cases taken <;> trivial

theorem callUnwired (taken : CallMove k g p g' p') : Unwired k g p g' p' := by
  cases taken <;> exact ⟨by simp [withClient],rfl,rfl,nofun,nofun,nofun⟩

end Frames

omit [DecidableEq K] in
theorem expectsGrows {history more : List (Option (Token K))} {w : Wire K} {purpose : Purpose K}
    (old : expects history w purpose) : expects (history ++ more) w purpose := by
  rcases old with waiting | ⟨reply,sent,answers,held⟩
  · exact .inl waiting
  · refine .inr ⟨reply,sent,answers,fun n token set ok => ?_⟩
    rw [List.drop_append]
    exact List.mem_append_left _ (held n token set ok)

variable [DecidableEq T] {ttl : K → ℕ} {c d : State T K}

theorem stepGuarded (old : Guarded c) (taken : Step (system K ttl) c d) : Guarded d := by
  obtain ⟨locked,alone⟩ := old
  cases taken with
  | solo taken => exact ⟨fun t here => by rw [(serverClient taken).1]; exact locked t here,alone⟩
  | @move t g l taken =>
    obtain ⟨same,taken⟩ := taken
    have others := fun j => moveOthers taken (j := j)
    have frame : ∀ u, u ≠ t → (c.set t g l).locals u = c.locals u := fun u other => setOther c g l other
    have clients : ∀ u, ((c.set t g l).locals u).client = (c.locals u).client := by
      intro u
      by_cases self : u = t
      · rw [self, setSelf, same]
      · rw [frame u self]
    have apart : inside l.pc → ∀ u, u ≠ t → inside (c.locals u).pc →
        (c.locals u).client ≠ (c.locals t).client := by
      intro after u other here client
      rcases moveGuarding taken with ⟨before,_,_⟩ | ⟨_,free,_⟩ | ⟨_,out⟩ | ⟨_,out,_⟩
      · exact other (alone u t here before client)
      · rw [← client, locked u here] at free
        cases free
      · exact out after
      · exact out after
    constructor
    · intro u here
      rw [clients u, setShared]
      by_cases self : u = t
      · subst self
        rw [setSelf] at here
        rcases moveGuarding taken with ⟨before,_,kept⟩ | ⟨_,_,locks⟩ | ⟨_,out⟩ | ⟨_,out,_⟩
        · rw [kept]; exact locked u before
        · exact locks
        · exact absurd here out
        · exact absurd here out
      · rw [frame u self] at here
        by_cases client : (c.locals u).client = (c.locals t).client
        · rcases moveGuarding taken with ⟨before,after,kept⟩ | ⟨_,free,locks⟩ | ⟨before,_⟩ | ⟨_,_,kept⟩
          · rw [client, kept]; exact locked t before
          · rw [client]; exact locks
          · exact absurd (alone u t here before client) self
          · rw [kept]; exact locked u here
        · rw [others _ client]; exact locked u here
    · intro u v hu hv client
      rw [clients u, clients v] at client
      by_cases uSelf : u = t
      · by_cases vSelf : v = t
        · rw [uSelf, vSelf]
        · rw [uSelf, setSelf] at hu
          rw [frame v vSelf] at hv
          rw [uSelf] at client
          exact absurd client.symm (apart hu v vSelf hv)
      · rw [frame u uSelf] at hu
        by_cases vSelf : v = t
        · rw [vSelf, setSelf] at hv
          rw [vSelf] at client
          exact absurd client (apart hv u uSelf hu)
        · rw [frame v vSelf] at hv
          exact alone u v hu hv client

theorem stepTimed (old : Timed c) (taken : Step (system K ttl) c d) : Timed d := by
  obtain ⟨current,began⟩ := old
  cases taken with
  | solo taken =>
    obtain ⟨more,grown,last⟩ := serverTimed taken
    refine ⟨?_,fun t => ?_⟩
    · rcases last with ⟨rfl,same⟩ | rfl
      · simp only [grown, same, List.append_nil, current]
      · simp [grown]
    · simp only [grown, List.length_append]
      exact Nat.le_add_right_of_le (began t)
  | @move t g l taken =>
    obtain ⟨key,history,at'⟩ := moveTimed taken.2
    refine ⟨by rw [setShared, key, history, current],fun u => ?_⟩
    rw [setShared, history]
    by_cases self : u = t
    · subst self
      rw [setSelf]
      have := began u
      omega
    · rw [setOther c g l self]
      exact began u

theorem executeExpects {g : Shared K} {purpose : Purpose K} {client : Option K}
    (began : ∀ n token, purpose = .set n token → n ≤ g.history.length) :
    expects (withKey g (execute ttl g.now g.key purpose.command).1).history
      ⟨client,[],[(execute ttl g.now g.key purpose.command).2]⟩ purpose := by
  refine .inr ⟨_,rfl,rfl,fun n token set ok => ?_⟩
  subst set
  have free : g.key = none := by
    by_contra held
    simp [Purpose.command, execute, held] at ok
  have later : 0 < (g.history ++ [some token]).length - n := by
    have := began n token rfl
    simp only [List.length_append, List.length_singleton]
    omega
  simp only [withKey, Purpose.command, execute, free, if_true, Option.map_some]
  rw [List.drop_append_of_le_length (began n token rfl)]
  exact List.mem_append_right _ (List.mem_singleton_self _)

omit [DecidableEq K] [DecidableEq T] in
theorem answeredInSync {g : Shared K} {id : ℕ} {command : Command K} {rest : List (Command K)} {reply : Reply}
    (old : InSync c) (first : (c.shared.wire id).sent = command :: rest)
    (client : g.client = c.shared.client) (nextConn : g.nextConn = c.shared.nextConn)
    (wire : g.wire = Function.update c.shared.wire id
      {c.shared.wire id with sent := rest, answers := (c.shared.wire id).answers ++ [reply]})
    (history : ∃ more, g.history = c.shared.history ++ more)
    (answer : ∀ t purpose, (c.locals t).pc = .await purpose id → purpose.command = command →
      expects g.history ⟨(c.shared.wire id).client,[],[reply]⟩ purpose) : InSync ⟨g,c.locals⟩ := by
  obtain ⟨more,grown⟩ := history
  have busy : ¬quiet (c.shared.wire id) := fun quiet => by rw [quiet.1] at first; cases first
  have elsewhere : ∀ {i}, i ≠ id → g.wire i = c.shared.wire i := fun other => by
    rw [wire, Function.update_of_ne other]
  refine ⟨fun k conn here => ?_,fun i above => ?_,fun k i here => ?_,fun t purpose i here => ?_,
    fun t n token here => ?_⟩
  · rw [client] at here
    have at' := old.conns k conn here
    rw [nextConn]
    refine ⟨at'.1,?_⟩
    by_cases same : conn.id = id
    · rw [wire, same, Function.update_self]
      exact same ▸ at'.2
    · rw [elsewhere same]; exact at'.2
  · rw [nextConn] at above
    have at' := old.unused i above
    by_cases same : i = id
    · exact absurd (same ▸ at') busy
    · rw [elsewhere same]; exact at'
  · rw [client] at here
    refine (old.quiet k i here).imp_right (fun at' => ?_)
    by_cases same : i = id
    · exact absurd (same ▸ at') busy
    · rw [elsewhere same]; exact at'
  · obtain ⟨conn,at'⟩ := old.awaits t purpose i here
    refine ⟨by rw [client]; exact conn,?_⟩
    by_cases same : i = id
    · subst same
      rcases at' with ⟨sent,answers⟩ | ⟨_,sent,_⟩
      · rw [sent] at first
        obtain ⟨rfl,rfl⟩ := List.cons_eq_cons.mp first
        rw [wire, Function.update_self, answers, List.nil_append]
        exact answer t purpose here rfl
      · rw [sent] at first; cases first
    · rw [elsewhere same, grown]
      exact expectsGrows at'
  · rw [grown, List.drop_append]
    exact List.mem_append_left _ (old.replied t n token here)

omit [DecidableEq T] in
theorem serverInSync {g : Shared K} (old : InSync c) (timed : Timed c) (taken : ServerMove ttl c.shared g) :
    InSync ⟨g,c.locals⟩ := by
  cases taken with
  | tick => exact ⟨old.conns,old.unused,old.quiet,old.awaits,old.replied⟩
  | expires held past =>
    refine ⟨old.conns,old.unused,old.quiet,fun t purpose id here => ?_,fun t n token here => ?_⟩
    · obtain ⟨conn,at'⟩ := old.awaits t purpose id here
      exact ⟨conn,expectsGrows at'⟩
    · change some token ∈ (c.shared.history ++ [none]).drop n
      rw [List.drop_append]
      exact List.mem_append_left _ (old.replied t n token here)
  | executes id first =>
    refine answeredInSync old first rfl rfl rfl ⟨_,rfl⟩ (fun t purpose here same => ?_)
    subst same
    refine executeExpects (fun n token set => ?_)
    have began := timed.began t
    rw [here, set] at began
    exact began
  | refuses id first =>
    refine answeredInSync old first rfl rfl rfl ⟨[],(List.append_nil _).symm⟩ (fun t purpose here same => ?_)
    exact .inr ⟨_,rfl,rfl,fun n token set ok => by cases ok⟩

variable {t : T} {g : Shared K} {l : Local K}

theorem unwiredInSync (old : InSync c) (same : l.client = (c.locals t).client)
    (others : ∀ j, j ≠ (c.locals t).client → g.client j = c.shared.client j)
    (history : g.history = c.shared.history)
    (unwired : Unwired (c.locals t).client c.shared (c.locals t).pc g l.pc) : InSync (c.set t g l) := by
  have conn : ∀ j, (g.client j).conn = (c.shared.client j).conn := by
    intro j
    by_cases mine : j = (c.locals t).client
    · rw [mine]; exact unwired.conn
    · rw [others j mine]
  refine ⟨fun k here => ?_,fun i above => ?_,fun k i here => ?_,fun u purpose i here => ?_,
    fun u n token here => ?_⟩
  · rw [setShared, conn, unwired.wire, unwired.nextConn]
    exact old.conns k here
  · rw [setShared, unwired.nextConn] at above
    rw [setShared, unwired.wire]
    exact old.unused i above
  · rw [setShared, conn] at here
    rw [setShared, unwired.wire]
    refine (old.quiet k i here).imp_left (fun ⟨u,purpose,client,awaiting⟩ => ⟨u,purpose,?_⟩)
    have other : u ≠ t := fun self => unwired.before purpose i (self ▸ awaiting)
    rw [setOther c g l other]
    exact ⟨client,awaiting⟩
  · have other : u ≠ t := by
      rintro rfl
      rw [setSelf] at here
      exact unwired.after purpose i here
    rw [setOther c g l other] at here ⊢
    rw [setShared, conn, unwired.wire, history]
    exact old.awaits u purpose i here
  · have other : u ≠ t := by
      rintro rfl
      rw [setSelf] at here
      exact unwired.silent _ _ here
    rw [setOther c g l other] at here
    rw [setShared, history]
    exact old.replied u n token here

theorem ownInSync (old : InSync c) (same : l.client = (c.locals t).client)
    (lone : ∀ u, u ≠ t → inside (c.locals u).pc → (c.locals u).client ≠ (c.locals t).client)
    (others : ∀ j, j ≠ (c.locals t).client → g.client j = c.shared.client j)
    (history : g.history = c.shared.history)
    (elsewhere : ∀ i, i < c.shared.nextConn → (c.shared.wire i).client ≠ some (c.locals t).client →
      g.wire i = c.shared.wire i)
    (grows : c.shared.nextConn ≤ g.nextConn)
    (conns : ∀ conn, (g.client (c.locals t).client).conn = some conn →
      conn.id < g.nextConn ∧ (g.wire conn.id).client = some (c.locals t).client)
    (unused : ∀ i, g.nextConn ≤ i → quiet (g.wire i))
    (settled : ∀ i, (g.client (c.locals t).client).conn = some ⟨i,false⟩ →
      (∃ purpose, l.pc = .await purpose i) ∨ quiet (g.wire i))
    (awaits : ∀ purpose i, l.pc = .await purpose i →
      (g.client (c.locals t).client).conn = some ⟨i,false⟩ ∧ expects g.history (g.wire i) purpose)
    (replied : ∀ n token, l.pc = .replied (.set n token) (some .ok) → some token ∈ g.history.drop n) :
    InSync (c.set t g l) := by
  have foreign : ∀ {j conn}, j ≠ (c.locals t).client → (c.shared.client j).conn = some conn →
      g.wire conn.id = c.shared.wire conn.id := by
    intro j conn other here
    have at' := old.conns j conn here
    refine elsewhere _ at'.1 (fun mine => other ?_)
    exact Option.some.inj (at'.2.symm.trans mine)
  refine ⟨fun k conn here => ?_,unused,fun k i here => ?_,fun u purpose i here => ?_,fun u n token here => ?_⟩
  · by_cases mine : k = (c.locals t).client
    · subst mine; exact conns conn here
    · rw [setShared, others k mine] at here
      rw [setShared, foreign mine here]
      have at' := old.conns k conn here
      exact ⟨at'.1.trans_le grows,at'.2⟩
  · by_cases mine : k = (c.locals t).client
    · subst mine
      refine (settled i here).imp_left (fun ⟨purpose,waits⟩ => ⟨t,purpose,?_⟩)
      rw [setSelf]
      exact ⟨same,waits⟩
    · rw [setShared, others k mine] at here
      have kept : g.wire i = c.shared.wire i := foreign mine here
      rw [setShared, kept]
      refine (old.quiet k i here).imp_left (fun ⟨u,purpose,client,waits⟩ => ⟨u,purpose,?_⟩)
      have other : u ≠ t := fun self => mine (self ▸ client.symm)
      rw [setOther c g l other]
      exact ⟨client,waits⟩
  · by_cases self : u = t
    · subst self
      rw [setSelf] at here ⊢
      rw [same]
      exact awaits purpose i here
    · rw [setOther c g l self] at here ⊢
      have away := lone u self (by rw [here]; trivial)
      obtain ⟨conn,at'⟩ := old.awaits u purpose i here
      have kept : g.wire i = c.shared.wire i := foreign away conn
      rw [setShared, others _ away, kept, history]
      exact ⟨conn,at'⟩
  · by_cases self : u = t
    · subst self
      rw [setSelf] at here
      exact replied n token here
    · rw [setOther c g l self] at here
      rw [setShared, history]
      exact old.replied u n token here

theorem connInSync {p p' : Pc K} (old : InSync c) (same : l.client = (c.locals t).client)
    (lone : ∀ u, u ≠ t → inside (c.locals u).pc → (c.locals u).client ≠ (c.locals t).client)
    (before : (c.locals t).pc = p) (after : l.pc = p')
    (taken : ConnMove (c.locals t).client c.shared p g p') : InSync (c.set t g l) := by
  have others := fun j => moveOthers (.conn taken) (j := j)
  have mine : ∀ {conn}, (c.shared.client (c.locals t).client).conn = some conn →
      (c.shared.wire conn.id).client = some (c.locals t).client := fun here => (old.conns _ _ here).2
  -- a caller that waits for no answer finds nothing under way
  have ready : (∀ purpose id, p ≠ .await purpose id) → ∀ {id},
      (c.shared.client (c.locals t).client).conn = some ⟨id,false⟩ → quiet (c.shared.wire id) := by
    intro idle id healthy
    refine (old.quiet _ id healthy).resolve_left (fun ⟨u,purpose,client,waits⟩ => ?_)
    by_cases self : u = t
    · rw [self, before] at waits; exact idle purpose id waits
    · exact lone u self (by rw [waits]; trivial) client
  have below : ∀ {id}, (c.shared.client (c.locals t).client).conn = some ⟨id,false⟩ → id < c.shared.nextConn :=
    fun here => (old.conns _ _ here).1
  cases taken with
  | usable healthy =>
    refine ownInSync old same lone others rfl (fun i _ _ => rfl) (Nat.le_refl _) ?_ old.unused ?_ ?_ ?_
    · simpa [withClient] using old.conns _
    · intro i here
      have unchanged : (c.shared.client (c.locals t).client).conn = some ⟨i,false⟩ := by
        simpa [withClient] using here
      exact .inr (ready nofun unchanged)
    · intro purpose i here; rw [after] at here; cases here
    · intro n token here; rw [after] at here; cases here
  | unusable dead =>
    refine ownInSync old same lone others rfl (fun i _ _ => rfl) (Nat.le_refl _) ?_ old.unused ?_ ?_ ?_
    · intro conn here; simp [withClient] at here
    · intro i here; simp [withClient] at here
    · intro purpose i here; rw [after] at here; cases here
    · intro n token here; rw [after] at here; cases here
  | connects =>
    refine ownInSync old same lone others rfl (fun i below _ => ?_) (Nat.le_succ _) ?_ (fun i above => ?_) ?_ ?_ ?_
    · exact Function.update_of_ne (Nat.ne_of_lt below) _ _
    · intro conn here
      simp only [withClient, withWire, Function.update_self, Option.some.injEq] at here
      subst here
      exact ⟨Nat.lt_succ_self _,by simp [withClient, withWire]⟩
    · have other : i ≠ c.shared.nextConn := by
        have : c.shared.nextConn + 1 ≤ i := above
        omega
      have kept := old.unused i (Nat.le_of_succ_le above)
      simpa [withClient, withWire, Function.update_of_ne other] using kept
    · intro i here
      simp only [withClient, withWire, Function.update_self, Option.some.injEq, Conn.mk.injEq, and_true] at here
      subst here
      exact .inr (by simp [withClient, withWire, quiet])
    · intro purpose i here; rw [after] at here; cases here
    · intro n token here; rw [after] at here; cases here
  | connectFails =>
    refine ownInSync old same lone others rfl (fun i _ _ => rfl) (Nat.le_refl _) (fun conn => old.conns _ conn)
      old.unused ?_ ?_ ?_
    · exact fun i here => .inr (ready nofun here)
    · intro purpose i here; rw [after] at here; cases here
    · intro n token here; rw [after] at here; cases here
  | @sends purpose id healthy =>
    have still := ready nofun healthy
    refine ownInSync old same lone others rfl (fun i _ away => ?_) (Nat.le_refl _) (fun conn here => ?_)
      (fun i above => ?_) (fun i here => ?_) (fun other i here => ?_) ?_
    · exact Function.update_of_ne (fun at' : i = id => away (by rw [at']; exact mine healthy)) _ _
    · have at' : conn = ⟨id,false⟩ := Option.some.inj (here.symm.trans healthy)
      subst at'
      exact ⟨below healthy,by simpa [send, withWire] using mine healthy⟩
    · have other : i ≠ id := by
        have := below healthy
        have : c.shared.nextConn ≤ i := above
        omega
      simpa [send, withWire, Function.update_of_ne other] using old.unused i above
    · have at' : i = id := by
        have := Option.some.inj (here.symm.trans healthy)
        exact congrArg Conn.id this
      exact .inl ⟨purpose,by rw [after, at']⟩
    · rw [after] at here
      cases here
      exact ⟨healthy,.inl (by simp [send, withWire, still.1, still.2])⟩
    · intro n token here; rw [after] at here; cases here
  | @sendFails purpose id delivered healthy =>
    have wires : ∀ i, i ≠ id → (if delivered = true then send c.shared id purpose.command else c.shared).wire i =
        c.shared.wire i := by
      intro i other
      cases delivered
      · rfl
      · exact Function.update_of_ne other _ _
    have owner : ((if delivered = true then send c.shared id purpose.command else c.shared).wire id).client =
        some (c.locals t).client := by
      cases delivered <;> simpa [send, withWire] using mine healthy
    have counter : (if delivered = true then send c.shared id purpose.command else c.shared).nextConn =
        c.shared.nextConn := by cases delivered <;> rfl
    refine ownInSync old same lone others ?_ (fun i _ away => ?_) (Nat.le_of_eq counter.symm) (fun conn here => ?_)
      (fun i above => ?_) (fun i here => ?_) (fun other i here => ?_) ?_
    · cases delivered <;> rfl
    · exact wires i (fun at' => away (at' ▸ mine healthy))
    · simp only [withClient, Function.update_self, Option.some.injEq] at here
      subst here
      exact ⟨counter ▸ below healthy,owner⟩
    · have above : c.shared.nextConn ≤ i := counter ▸ above
      have other : i ≠ id := by
        have := below healthy
        omega
      simp only [withClient, wires i other]
      exact old.unused i above
    · simp [withClient] at here
    · rw [after] at here; cases here
    · intro n token here; rw [after] at here; cases here
  | @reads purpose id reply rest first =>
    obtain ⟨healthy,waiting⟩ := old.awaits t purpose id before
    rcases waiting with ⟨-,none⟩ | ⟨answer,sent,answers,held⟩
    · rw [none] at first; cases first
    rw [answers] at first
    obtain ⟨rfl,rfl⟩ := List.cons_eq_cons.mp first
    refine ownInSync old same lone others rfl (fun i _ away => ?_) (Nat.le_refl _) (fun conn here => ?_)
      (fun i above => ?_) (fun i here => ?_) (fun other i here => ?_) ?_
    · exact Function.update_of_ne (fun at' : i = id => away (by rw [at']; exact mine healthy)) _ _
    · have at' : conn = ⟨id,false⟩ := Option.some.inj (here.symm.trans healthy)
      subst at'
      exact ⟨below healthy,by simpa [withWire] using mine healthy⟩
    · have other : i ≠ id := by
        have := below healthy
        have : c.shared.nextConn ≤ i := above
        omega
      simpa [withWire, Function.update_of_ne other] using old.unused i above
    · have at' : i = id := congrArg Conn.id (Option.some.inj (here.symm.trans healthy))
      exact .inr (by simp [withWire, at', quiet, sent])
    · rw [after] at here; cases here
    · intro n token here
      rw [after] at here
      cases here
      exact held n token rfl rfl
  | @readFails purpose id =>
    obtain ⟨healthy,-⟩ := old.awaits t purpose id before
    refine ownInSync old same lone others rfl (fun i _ _ => rfl) (Nat.le_refl _) (fun conn here => ?_)
      old.unused (fun i here => ?_) (fun other i here => ?_) ?_
    · simp only [withClient, Function.update_self, Option.some.injEq] at here
      subst here
      exact ⟨below healthy,(old.conns _ _ healthy).2⟩
    · simp [withClient] at here
    · rw [after] at here; cases here
    · intro n token here; rw [after] at here; cases here

theorem stepInSync (guarded : Guarded c) (timed : Timed c) (old : InSync c)
    (taken : Step (system K ttl) c d) : InSync d := by
  cases taken with
  | solo taken => exact serverInSync old timed taken
  | @move t g l taken =>
    obtain ⟨same,taken⟩ := taken
    have others := fun j => moveOthers taken (j := j)
    have history := (moveTimed taken).2.1
    rcases taken with guard | conn | call
    · exact unwiredInSync old same others history (guardUnwired guard)
    · refine connInSync old same (fun u other here client => ?_) rfl rfl conn
      exact other (guarded.alone u t here (connInside conn) client)
    · exact unwiredInSync old same others history (callUnwired call)

end Invariants

section Ownership
variable {T : Type*} [DecidableEq T] {ttl : K → ℕ} {c d : State T K}

structure Owns (k : K) (g : Shared K) (p : Pc K) : Prop where
  cached : ∀ token, (g.client k).token = some token → token.owner = k
  called : ∀ token, carries p = some token → token.owner = k
  sent : ∀ id, ∀ command ∈ (g.wire id).sent, (g.wire id).client = some command.token.owner

omit [DecidableEq K] in
theorem sentFewer {wires : ℕ → Wire K} {i : ℕ} {w : Wire K}
    (old : ∀ id, ∀ command ∈ (wires id).sent, (wires id).client = some command.token.owner)
    (same : w.client = (wires i).client) (fewer : ∀ command ∈ w.sent, command ∈ (wires i).sent) (id : ℕ) :
    ∀ command ∈ (Function.update wires i w id).sent,
      (Function.update wires i w id).client = some command.token.owner := by
  intro command here
  by_cases mine : id = i
  · subst mine
    rw [Function.update_self] at here ⊢
    rw [same]
    exact old id command (fewer command here)
  · rw [Function.update_of_ne mine] at here ⊢
    exact old id command here

omit [DecidableEq K] in
theorem sendOwns {k : K} {g : Shared K} {p : Pc K} {id : ℕ} {command : Command K} (old : Owns k g p)
    (mine : (g.wire id).client = some k) (own : command.token.owner = k) :
    ∀ i, ∀ other ∈ ((send g id command).wire i).sent,
      ((send g id command).wire i).client = some other.token.owner := by
  intro i other here
  by_cases same : i = id
  · subst same
    simp only [send, withWire, Function.update_self, List.mem_append, List.mem_singleton] at here ⊢
    rcases here with before | rfl
    · exact old.sent i other before
    · rw [mine, own]
  · simp only [send, withWire, Function.update_of_ne same] at here ⊢
    exact old.sent i other here

theorem guardOwns {k : K} {g g' : Shared K} {p p' : Pc K} (taken : GuardMove k g p g' p') (old : Owns k g p) :
    Owns k g' p' := by
  have cached := old.cached
  cases taken <;> refine ⟨?_,nofun,old.sent⟩ <;> simpa [withClient] using cached

theorem callOwns {k : K} {g g' : Shared K} {p p' : Pc K} (taken : CallMove k g p g' p') (old : Owns k g p) :
    Owns k g' p' := by
  obtain ⟨cached,called,sent⟩ := old
  have forgotten : ∀ token, ((withClient g k {g.client k with token := none}).client k).token = some token →
      token.owner = k := fun token here => by simp [withClient] at here
  cases taken with
  | held here => exact ⟨cached,fun token same => cached token (here.trans same),sent⟩
  | acquired =>
    refine ⟨fun token here => called token ?_,called,sent⟩
    simpa [withClient, carries, Purpose.command, Command.token] using here
  | renewReads here => exact ⟨cached,fun token same => cached token (here.trans same),sent⟩
  | renewDead dead => exact ⟨forgotten,nofun,sent⟩
  | renewAsks healthy => exact ⟨cached,called,sent⟩
  | lost other => exact ⟨forgotten,nofun,sent⟩
  | releaseTakes here => exact ⟨forgotten,fun token same => cached token (here.trans same),sent⟩
  | releaseAsks healthy => exact ⟨cached,called,sent⟩
  | _ => exact ⟨cached,nofun,sent⟩

theorem connOwns {k : K} {g g' : Shared K} {p p' : Pc K} (taken : ConnMove k g p g' p') (old : Owns k g p)
    (mine : ∀ conn, (g.client k).conn = some conn → (g.wire conn.id).client = some k) :
    Owns k g' p' := by
  have cached := old.cached
  have called := old.called
  cases taken with
  | connects =>
    refine ⟨by simpa [withClient, withWire] using cached,?_,fun id command here => ?_⟩
    · simp [carries, Purpose.command, Command.token]
    · by_cases same : id = g.nextConn
      · subst same; simp [withClient, withWire] at here
      · simp only [withClient, withWire, Function.update_of_ne same] at here ⊢
        exact old.sent id command here
  | sends healthy =>
    exact ⟨cached,called,sendOwns old (mine _ healthy) (called _ rfl)⟩
  | sendFails delivered healthy =>
    refine ⟨?_,called,?_⟩
    · cases delivered <;> simpa [withClient, send, withWire] using cached
    · cases delivered
      · exact old.sent
      · exact sendOwns old (mine _ healthy) (called _ rfl)
  | @reads purpose i reply rest first =>
    exact ⟨cached,called,sentFewer old.sent (by rfl) (fun command here => here)⟩
  | readFails => exact ⟨by simpa [withClient] using cached,called,old.sent⟩
  | usable => exact ⟨by simpa [withClient] using cached,by simp [carries, Purpose.command, Command.token],old.sent⟩
  | unusable => exact ⟨by simpa [withClient] using cached,nofun,old.sent⟩
  | connectFails => exact ⟨cached,nofun,old.sent⟩

theorem stepOwned (sync : InSync c) (old : Owned c) (taken : Step (system K ttl) c d) : Owned d := by
  obtain ⟨cached,called,sent⟩ := old
  cases taken with
  | solo taken =>
    refine ⟨fun k token here => ?_,called,fun id command here => ?_⟩
    · rw [(serverClient taken).1] at here
      exact cached k token here
    · cases taken with
      | executes i first =>
        refine sentFewer sent (by rfl) (fun other later => ?_) id command here
        rw [first]
        exact List.mem_cons_of_mem _ later
      | refuses i first =>
        refine sentFewer sent (by rfl) (fun other later => ?_) id command here
        rw [first]
        exact List.mem_cons_of_mem _ later
      | _ => exact sent id command here
  | @move t g l taken =>
    obtain ⟨same,taken⟩ := taken
    have owns : Owns (c.locals t).client c.shared (c.locals t).pc := ⟨cached _,called t,sent⟩
    have owns' : Owns (c.locals t).client g l.pc := by
      rcases taken with guard | conn | call
      · exact guardOwns guard owns
      · exact connOwns conn owns (fun conn here => (sync.conns _ conn here).2)
      · exact callOwns call owns
    refine ⟨fun k token here => ?_,fun u token here => ?_,owns'.sent⟩
    · by_cases mine : k = (c.locals t).client
      · subst mine; exact owns'.cached token here
      · rw [setShared, moveOthers taken mine] at here
        exact cached k token here
    · by_cases self : u = t
      · subst self
        rw [setSelf] at here ⊢
        rw [same]
        exact owns'.called token here
      · rw [setOther c g l self] at here ⊢
        exact called u token here

end Ownership

section Runs
variable {T : Type*} {ttl : K → ℕ} {c d : State T K} {of : T → K}

structure Invariant (c : State T K) : Prop where
  guarded : Guarded c
  timed : Timed c
  sync : InSync c
  owned : Owned c

/- A TryAcquire that returns true has seen its token on the key during the call; what
ReNew and Release have sent leaves a key of somebody else as it is. -/
structure Sound (ttl : K → ℕ) (c : State T K) : Prop where
  current : c.shared.history.getLast? = some (c.shared.key.map Prod.fst)
  acquired : ∀ t n token, (c.locals t).pc = .wins n token →
    token.owner = (c.locals t).client ∧ some token ∈ c.shared.history.drop n
  harmless : ∀ id command rest, (c.shared.wire id).sent = command :: rest →
    (∀ token, command ≠ .set token) → ∀ holder deadline, c.shared.key = some (holder,deadline) →
    (c.shared.wire id).client ≠ some holder.owner →
    (execute ttl c.shared.now c.shared.key command).1 = c.shared.key

def fresh (c d : State T K) : Prop :=
  ∀ t n token, (c.locals t).pc = .fast n → (d.locals t).pc = .wins n token →
    some token ∈ c.shared.history.drop n

omit [DecidableEq K] in
theorem startInvariant (of : T → K) : Invariant (start of) := by
  refine ⟨⟨fun t here => here.elim,fun t u here => here.elim⟩,⟨rfl,fun t => Nat.zero_le _⟩,
    ⟨nofun,fun _ _ => ⟨rfl,rfl⟩,nofun,nofun,nofun⟩,⟨nofun,nofun,fun id command here => ?_⟩⟩
  cases here

theorem scriptHarmless {now : ℕ} {key : Key K} {command : Command K} (script : ∀ token, command ≠ .set token)
    {holder : Token K} {deadline : ℕ} (held : key = some (holder,deadline))
    (foreign : command.token.owner ≠ holder.owner) : (execute ttl now key command).1 = key := by
  have other : holder ≠ command.token := fun same => foreign (by rw [same])
  cases command with
  | set token => exact absurd rfl (script token)
  | renew token => simp [execute, held, show holder ≠ token from other]
  | release token => simp [execute, held, show holder ≠ token from other]

theorem soundOf (inv : Invariant c)
    (acquired : ∀ t n token, (c.locals t).pc = .wins n token → some token ∈ c.shared.history.drop n) :
    Sound ttl c := by
  refine ⟨inv.timed.current,fun t n token here => ⟨inv.owned.called t token ?_,acquired t n token here⟩,
    fun id command rest first script holder deadline held foreign => ?_⟩
  · rw [here]; rfl
  · refine scriptHarmless script held (fun same => foreign ?_)
    rw [inv.owned.sent id command (first ▸ List.mem_cons_self), same]

variable [DecidableEq T]

theorem stepInvariant (old : Invariant c) (taken : Step (system K ttl) c d) : Invariant d :=
  ⟨stepGuarded old.guarded taken,stepTimed old.timed taken,stepInSync old.guarded old.timed old.sync taken,
    stepOwned old.sync old.owned taken⟩

theorem winCases {k : K} {g g' : Shared K} {p : Pc K} {n : ℕ} {token : Token K}
    (taken : Move k g p g' (.wins n token)) : p = .fast n ∨ p = .replied (.set n token) (some .ok) := by
  rcases taken with guard | conn | call
  · cases guard
  · cases conn
  · cases call <;> simp

theorem stepSound (inv : Invariant c) (old : Sound ttl c) (taken : Step (system K ttl) c d) :
    Sound ttl d ↔ fresh c d := by
  have inv' := stepInvariant inv taken
  cases taken with
  | solo taken =>
    obtain ⟨more,grown,-⟩ := serverTimed taken
    refine iff_of_true (soundOf inv' (fun t n token here => ?_)) (fun t n token here wins => ?_)
    · rw [grown, List.drop_append]
      exact List.mem_append_left _ (old.acquired t n token here).2
    · rw [here] at wins; cases wins
  | @move t g l taken =>
    have history := (moveTimed taken.2).2.1
    constructor
    · intro good u n token here wins
      have held := (good.acquired u n token wins).2
      rwa [setShared, history] at held
    · intro fair
      refine soundOf inv' (fun u n token here => ?_)
      rw [setShared, history]
      by_cases self : u = t
      · subst self
        have wins := here
        rw [setSelf] at here
        have move := taken.2
        rw [here] at move
        rcases winCases move with cached | answered
        · exact fair u n token cached wins
        · exact inv.sync.replied u n token answered
      · rw [setOther c g l self] at here
        exact (old.acquired u n token here).2

end Runs

section Uses

def ttl : Fin 2 → ℕ := fun _ => 1

abbrev TwoClients := State (Fin 2) (Fin 2)

theorem callStep {c : TwoClients} (t : Fin 2) {g : Shared (Fin 2)} {p : Pc (Fin 2)}
    (taken : Move (c.locals t).client c.shared (c.locals t).pc g p) :
    Step (system (Fin 2) ttl) c (c.set t g ⟨(c.locals t).client,p⟩) := .move t ⟨rfl,taken⟩

def asking (c d : TwoClients) : Prop := Step (system (Fin 2) ttl) c d ∧
  ∀ t n token, (c.locals t).pc = .fast n → (d.locals t).pc ≠ .wins n token

theorem askServer {c : TwoClients} {g : Shared (Fin 2)} (taken : ServerMove ttl c.shared g) : asking c ⟨g,c.locals⟩ :=
  ⟨.solo taken,fun t n token here => by simp [here]⟩

theorem ask {c : TwoClients} (t : Fin 2) {g : Shared (Fin 2)} {p : Pc (Fin 2)}
    (taken : Move (c.locals t).client c.shared (c.locals t).pc g p)
    (asks : (∀ n, (c.locals t).pc ≠ .fast n) ∨ ∀ n token, p ≠ .wins n token) :
    asking c (c.set t g ⟨(c.locals t).client,p⟩) := by
  refine ⟨callStep t taken,fun u n token here => ?_⟩
  by_cases same : u = t
  · subst same
    rw [setSelf]
    exact asks.elim (fun slow => absurd here (slow n)) (fun loses => loses n token)
  · rw [setOther _ _ _ same, here]
    nofun

theorem askedReachable {c d : TwoClients} (asked : Reachable asking c d) :
    Reachable (Step (system (Fin 2) ttl)) c d := asked.lift id (fun _ _ taken => taken.1)

def begun : TwoClients := start id

/- A client that has acquired with its first token on connection `id`. -/
def holder (k : Fin 2) (id : ℕ) : Client (Fin 2) := ⟨false,some ⟨k,0⟩,1,some ⟨id,false⟩⟩

def used (k : Fin 2) : Wire (Fin 2) := ⟨some k,[],[]⟩

def zeroHolds : TwoClients :=
  ⟨{begun.shared with
    key := some (⟨0,0⟩,1), history := [none,some ⟨0,0⟩], nextConn := 1
    client := Function.update begun.shared.client 0 (holder 0 0)
    wire := Function.update begun.shared.wire 0 (used 0)}, fun t => ⟨t,.idle⟩⟩

def oneHolds : TwoClients :=
  ⟨{zeroHolds.shared with
    now := 1, key := some (⟨1,0⟩,2), nextConn := 2
    history := [none,some ⟨0,0⟩,none,some ⟨1,0⟩]
    client := Function.update zeroHolds.shared.client 1 (holder 1 1)
    wire := Function.update zeroHolds.shared.wire 1 (used 1)}, fun t => ⟨t,.idle⟩⟩

theorem sameState {c d : TwoClients} (now : c.shared.now = d.shared.now) (key : c.shared.key = d.shared.key)
    (history : c.shared.history = d.shared.history) (nextConn : c.shared.nextConn = d.shared.nextConn)
    (client : c.shared.client = d.shared.client) (wire : c.shared.wire = d.shared.wire)
    (locals : c.locals = d.locals) : c = d := by
  obtain ⟨⟨_,_,_,_,_,_⟩,_⟩ := c
  obtain ⟨⟨_,_,_,_,_,_⟩,_⟩ := d
  simp_all

theorem zeroAcquires : Reachable asking begun zeroHolds := by
  have r0 : Reachable asking begun begun := .refl
  have r1 := r0.tail (ask 0 (.guard .callTry) (.inr nofun))
  have r2 := r1.tail (ask 0 (.guard (.enterTry rfl)) (.inr nofun))
  have r3 := r2.tail (ask 0 (.call (.notHeld rfl)) (.inr nofun))
  have r4 := r3.tail (ask 0 (.conn (.unusable nofun)) (.inr nofun))
  have r5 := r4.tail (ask 0 (.conn .connects) (.inr nofun))
  have r6 := r5.tail (ask 0 (.conn (.sends rfl)) (.inr nofun))
  have r7 := r6.tail (askServer (.executes 0 rfl))
  have r8 := r7.tail (ask 0 (.conn (.reads rfl)) (.inr nofun))
  have r9 := r8.tail (ask 0 (.call .acquired) (.inl nofun))
  have r10 := r9.tail (ask 0 (.guard .leaveWon) (.inr nofun))
  convert r10 using 1
  refine sameState rfl rfl rfl rfl (funext (Fin.forall_fin_two.mpr ⟨rfl,rfl⟩)) (funext fun id => ?_)
    (funext (Fin.forall_fin_two.mpr ⟨rfl,rfl⟩))
  cases id <;> rfl

theorem oneAcquires : Reachable asking zeroHolds oneHolds := by
  have r0 : Reachable asking zeroHolds zeroHolds := .refl
  have r1 := r0.tail (askServer .tick)
  have r2 := r1.tail (askServer (.expires rfl (Nat.le_refl 1)))
  have r3 := r2.tail (ask 1 (.guard .callTry) (.inr nofun))
  have r4 := r3.tail (ask 1 (.guard (.enterTry rfl)) (.inr nofun))
  have r5 := r4.tail (ask 1 (.call (.notHeld rfl)) (.inr nofun))
  have r6 := r5.tail (ask 1 (.conn (.unusable nofun)) (.inr nofun))
  have r7 := r6.tail (ask 1 (.conn .connects) (.inr nofun))
  have r8 := r7.tail (ask 1 (.conn (.sends rfl)) (.inr nofun))
  have r9 := r8.tail (askServer (.executes 1 rfl))
  have r10 := r9.tail (ask 1 (.conn (.reads rfl)) (.inr nofun))
  have r11 := r10.tail (ask 1 (.call .acquired) (.inl nofun))
  have r12 := r11.tail (ask 1 (.guard .leaveWon) (.inr nofun))
  convert r12 using 1
  refine sameState rfl rfl rfl rfl (funext (Fin.forall_fin_two.mpr ⟨rfl,rfl⟩)) (funext fun id => ?_)
    (funext (Fin.forall_fin_two.mpr ⟨rfl,rfl⟩))
  rcases id with _ | _ | id <;> rfl

/- Client 0 acquires, its key expires, client 1 acquires, and client 0 still takes its
cached token for the lock. -/
theorem staleTokenWins : ∃ c : TwoClients, Reachable (Step (system (Fin 2) ttl)) (start id) c ∧
    (c.locals 0).pc = .wins 3 ⟨0,0⟩ ∧ c.shared.history.drop 3 = [some ⟨1,0⟩] ∧
    c.shared.key = some (⟨1,0⟩,2) ∧ ¬Sound ttl c := by
  have r0 := askedReachable (zeroAcquires.trans oneAcquires)
  have r1 := r0.tail (callStep 0 (.guard .callTry))
  have r2 := r1.tail (callStep 0 (.guard (.enterTry rfl)))
  have r3 := r2.tail (callStep 0 (.call (.held rfl)))
  refine ⟨_,r3,rfl,rfl,rfl,fun good => ?_⟩
  have held := (good.acquired 0 3 ⟨0,0⟩ rfl).2
  revert held
  decide

end Uses
end Uco.DistributedLock
