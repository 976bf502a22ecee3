import Uco.DistributedLock

/-! Leases of the lock. The lease of a token ends when the time to live that the server last
gave the key for it ends. Until then the key holds the token, or its client has given the
token up for good; so a TryAcquire that began within the lease may trust its cached token. -/
namespace Uco.LockLease
open Interleaving DistributedLock

section Timelines
variable {T K : Type*}

structure Timeline (T K : Type*) where
  state : State T K
  lease : Token K → ℕ
  began : T → ℕ

def Timeline.start (of : T → K) : Timeline T K := ⟨DistributedLock.start of,fun _ => 0,fun _ => 0⟩

variable [DecidableEq K]

def granted (key : Key K) (lease : Token K → ℕ) : Token K → ℕ :=
  key.elim lease (fun held => Function.update lease held.1 held.2)

def Timeline.record (x : Timeline T K) (d : State T K) : Timeline T K :=
  ⟨d,granted d.shared.key x.lease,fun t => if (x.state.locals t).pc = .idle then d.shared.now else x.began t⟩

/- The cached token is taken for the lock only by a call that began within its lease. -/
def leased (x : Timeline T K) (d : State T K) : Prop :=
  ∀ t n token, (x.state.locals t).pc = .fast n → (d.locals t).pc = .wins n token → x.began t < x.lease token

def run [DecidableEq T] (ttl : K → ℕ) (x y : Timeline T K) : Prop :=
  Step (system K ttl) x.state y.state ∧ leased x y.state ∧ y = x.record y.state

def minting : Pc K → Option (Token K)
  | .command (.set _ token) | .await (.set _ token) _ | .replied (.set _ token) _ => some token
  | _ => none

def releasing : Pc K → Option (Token K)
  | .releaseConnection token | .command (.release token) | .await (.release token) _
  | .replied (.release token) _ => some token
  | _ => none

def trying : Pc K → Option ℕ
  | .waitTry n | .fast n => some n
  | _ => none

structure Gone (c : State T K) (token : Token K) : Prop where
  used : token.serial < (c.shared.client token.owner).serial
  uncached : (c.shared.client token.owner).token ≠ some token
  unminted : ∀ t, minting (c.locals t).pc ≠ some token

structure Ledger (c : State T K) : Prop where
  cached : ∀ k token, (c.shared.client k).token = some token → token.serial < (c.shared.client token.owner).serial
  minted : ∀ t token, minting (c.locals t).pc = some token → token.serial < (c.shared.client token.owner).serial
  released : ∀ t token, releasing (c.locals t).pc = some token → Gone c token
  sent : ∀ id token, .release token ∈ (c.shared.wire id).sent → Gone c token

structure Leases (x : Timeline T K) : Prop where
  inv : Invariant x.state
  ledger : Ledger x.state
  current : ∀ token deadline, x.state.shared.key = some (token,deadline) → x.lease token = deadline
  held : ∀ token, x.state.shared.now < x.lease token →
    x.state.shared.key = some (token,x.lease token) ∨ Gone x.state token
  called : ∀ t n, trying (x.state.locals t).pc = some n → ∀ token, x.began t < x.lease token →
    some token ∈ x.state.shared.history.drop n ∨ Gone x.state token

end Timelines

section Moves
variable {K : Type*} [DecidableEq K] {ttl : K → ℕ} {k : K} {g g' : Shared K} {p p' : Pc K}

inductive Handling (k : K) (g : Shared K) (p : Pc K) (g' : Shared K) (p' : Pc K) : Prop where
  | keeps (cached : (g'.client k).token = (g.client k).token ∨ (g'.client k).token = none)
      (serial : (g'.client k).serial = (g.client k).serial) (set : minting p' = minting p ∨ minting p' = none)
      (release : releasing p' = releasing p ∨ releasing p' = none)
  | mints (cached : (g'.client k).token = (g.client k).token)
      (serial : (g'.client k).serial = (g.client k).serial + 1)
      (set : minting p' = some ⟨k,(g.client k).serial⟩) (release : releasing p' = none)
  | caches (token : Token K) (before : minting p = some token) (cached : (g'.client k).token = some token)
      (serial : (g'.client k).serial = (g.client k).serial) (set : minting p' = none) (release : releasing p' = none)
  | takes (token : Token K) (before : p = .releaseToken) (held : (g.client k).token = some token)
      (cached : (g'.client k).token = none) (serial : (g'.client k).serial = (g.client k).serial)
      (set : minting p' = none) (release : releasing p' = some token)

theorem moveHandling (taken : Move k g p g' p') : Handling k g p g' p' := by
  rcases taken with guard | conn | call
  · cases guard <;> exact .keeps (.inl (by simp [withClient])) (by simp [withClient]) (.inr rfl) (.inr rfl)
  · cases conn with
    | usable => exact .mints (by simp [withClient]) (by simp [withClient]) rfl rfl
    | connects => exact .mints (by simp [withClient]) (by simp [withClient]) rfl rfl
    | unusable => exact .keeps (.inl (by simp [withClient])) (by simp [withClient]) (.inr rfl) (.inr rfl)
    | connectFails => exact .keeps (.inl rfl) rfl (.inr rfl) (.inr rfl)
    | @sends purpose id healthy => exact .keeps (.inl rfl) rfl (.inl (by cases purpose <;> rfl)) (.inl (by cases purpose <;> rfl))
    | @sendFails purpose id delivered healthy =>
      refine .keeps (.inl ?_) ?_ (.inl (by cases purpose <;> rfl)) (.inl (by cases purpose <;> rfl))
      · cases delivered <;> simp [withClient, send, withWire]
      · cases delivered <;> simp [withClient, send, withWire]
    | @reads purpose id reply rest first =>
      exact .keeps (.inl rfl) rfl (.inl (by cases purpose <;> rfl)) (.inl (by cases purpose <;> rfl))
    | @readFails purpose id =>
      exact .keeps (.inl (by simp [withClient])) (by simp [withClient]) (.inl (by cases purpose <;> rfl))
        (.inl (by cases purpose <;> rfl))
  · cases call with
    | @acquired since token => exact .caches token rfl (by simp [withClient]) (by simp [withClient]) rfl rfl
    | @releaseTakes token cached => exact .takes token rfl cached (by simp [withClient]) (by simp [withClient]) rfl rfl
    | renewDead dead => exact .keeps (.inr (by simp [withClient])) (by simp [withClient]) (.inr rfl) (.inr rfl)
    | lost other => exact .keeps (.inr (by simp [withClient])) (by simp [withClient]) (.inr rfl) (.inr rfl)
    | releaseAsks healthy => exact .keeps (.inl rfl) rfl (.inr rfl) (.inl rfl)
    | _ => exact .keeps (.inl rfl) rfl (.inr rfl) (.inr rfl)

theorem moveSent (taken : Move k g p g' p') {id : ℕ} {command : Command K} (here : command ∈ (g'.wire id).sent) :
    command ∈ (g.wire id).sent ∨ ∃ purpose, p = .command purpose ∧ command = purpose.command := by
  have sends : ∀ (purpose : Purpose K) i, command ∈ ((send g i purpose.command).wire id).sent →
      command ∈ (g.wire id).sent ∨ command = purpose.command := by
    intro purpose i here
    by_cases same : id = i
    · subst same
      simpa [send, withWire] using here
    · exact .inl (by simpa [send, withWire, same] using here)
  rcases taken with guard | conn | call
  · cases guard <;> exact .inl here
  · cases conn with
    | @sends purpose i healthy => exact (sends purpose i here).imp_right fun same => ⟨purpose,rfl,same⟩
    | @sendFails purpose i delivered healthy =>
      cases delivered with
      | true => exact (sends purpose i here).imp_right fun same => ⟨purpose,rfl,same⟩
      | false => exact .inl here
    | connects =>
      refine .inl ?_
      by_cases same : id = g.nextConn
      · subst same
        simp [withClient, withWire] at here
      · simpa [withClient, withWire, same] using here
    | @reads purpose i reply rest first =>
      refine .inl ?_
      by_cases same : id = i
      · subst same
        simpa [withWire] using here
      · simpa [withWire, same] using here
    | _ => exact .inl here
  · cases call <;> exact .inl here

theorem serverSent (taken : ServerMove ttl g g') {id : ℕ} {command : Command K}
    (here : command ∈ (g'.wire id).sent) : command ∈ (g.wire id).sent := by
  cases taken with
  | executes i first | refuses i first =>
    by_cases same : id = i
    · subst same
      rw [first]
      exact List.mem_cons_of_mem _ (by simpa [withWire, withKey] using here)
    · simpa [withWire, withKey, same] using here
  | _ => exact here

theorem moveTrying (taken : Move k g p g' p') {n : ℕ} (here : trying p' = some n) :
    trying p = some n ∨ p = .idle ∧ n = g.history.length - 1 := by
  rcases taken with guard | conn | call
  · cases guard <;> simp_all [trying]
  · cases conn <;> cases here
  · cases call <;> cases here

end Moves

section Steps
variable {T K : Type*} [DecidableEq K] {ttl : K → ℕ} {of : T → K}

inductive KeyChange (c d : State T K) : Prop where
  | same (key : d.shared.key = c.shared.key)
  | cleared (key : d.shared.key = none) (ended : ∀ token deadline, c.shared.key = some (token,deadline) →
      deadline ≤ c.shared.now ∨ Gone c token)
  | given (token : Token K) (deadline : ℕ) (key : d.shared.key = some (token,deadline))
      (grown : d.shared.history = c.shared.history ++ [some token])
      (before : ∀ other end', c.shared.key = some (other,end') → other = token)

theorem executeChange {c d : State T K} (command : Command K)
    (key : d.shared.key = (execute ttl c.shared.now c.shared.key command).1)
    (grown : d.shared.history = c.shared.history ++ [d.shared.key.map Prod.fst])
    (given : ∀ token, command = .release token → Gone c token) : KeyChange c d := by
  cases command with
  | set token =>
    by_cases free : c.shared.key = none
    · simp only [execute, free, if_true] at key
      exact .given token _ key (by rw [grown, key]; rfl) (by simp [free])
    · exact .same (by simpa [execute, free] using key)
  | renew token =>
    by_cases mine : c.shared.key.map Prod.fst = some token
    · simp only [execute, if_pos mine] at key
      refine .given token _ key (by rw [grown, key]; rfl) (fun other end' held => ?_)
      simpa [held] using mine
    · exact .same (by simpa [execute, mine] using key)
  | release token =>
    by_cases mine : c.shared.key.map Prod.fst = some token
    · simp only [execute, if_pos mine] at key
      refine .cleared key (fun other deadline held => .inr ?_)
      obtain rfl : other = token := by simpa [held] using mine
      exact given other rfl
    · exact .same (by simpa [execute, mine] using key)

variable [DecidableEq T] {c d : State T K}

theorem stepKey (ledger : Ledger c) (taken : Step (system K ttl) c d) : KeyChange c d := by
  cases taken with
  | solo taken =>
    cases taken with
    | tick => exact .same rfl
    | refuses id first => exact .same rfl
    | expires held past =>
      refine .cleared rfl (fun token deadline here => .inl ?_)
      rw [held] at here
      cases here
      exact past
    | @executes command rest id first =>
      refine executeChange command rfl rfl (fun token same => ?_)
      exact ledger.sent id token (by rw [first, same]; exact List.mem_cons_self)
  | @move t g l taken => exact .same (moveTimed taken.2).1

theorem stepGone {token : Token K} (old : Gone c token) (taken : Step (system K ttl) c d) : Gone d token := by
  obtain ⟨used,uncached,unminted⟩ := old
  cases taken with
  | solo taken =>
    have same := (serverClient taken).1
    exact ⟨by rwa [same],by rwa [same],unminted⟩
  | @move t g l taken =>
    obtain ⟨-,taken⟩ := taken
    have handled := moveHandling taken
    refine ⟨?_,?_,fun u => ?_⟩
    · rw [setShared]
      by_cases mine : token.owner = (c.locals t).client
      · rw [mine] at used ⊢
        cases handled <;> omega
      · rwa [moveOthers taken mine]
    · rw [setShared]
      by_cases mine : token.owner = (c.locals t).client
      · rw [mine] at uncached ⊢
        cases handled with
        | keeps cached => rcases cached with kept | none <;> simp_all
        | mints cached => rwa [cached]
        | caches other before cached =>
          intro same
          exact unminted t (before.trans (cached.symm.trans same))
        | takes other before held cached => simp [cached]
      · rwa [moveOthers taken mine]
    · by_cases self : u = t
      · subst self
        rw [setSelf]
        cases handled with
        | keeps _ _ set =>
          rcases set with kept | none
          · rw [kept]; exact unminted u
          · simp [none]
        | mints _ _ set =>
          rw [set]
          rintro ⟨rfl⟩
          exact absurd used (lt_irrefl _)
        | caches _ _ _ _ set => simp [set]
        | takes _ _ _ _ _ set => simp [set]
      · rw [setOther c g l self]
        exact unminted u

omit [DecidableEq K] in
theorem mintingInside {p : Pc K} {token : Token K} (here : minting p = some token) :
    inside p ∧ carries p = some token := by
  cases p with
  | command purpose | await purpose id | replied purpose reply =>
    cases purpose <;> simp_all [minting, inside, carries, Purpose.command, Command.token]
  | _ => cases here

omit [DecidableEq K] in
theorem releasingCommand {p : Purpose K} {token : Token K} (same : p.command = .release token) :
    p = .release token := by
  cases p <;> simp_all [Purpose.command]

theorem stepLedger (inv : Invariant c) (old : Ledger c) (taken : Step (system K ttl) c d) : Ledger d := by
  have gone : ∀ {token}, Gone c token → Gone d token := fun gone => stepGone gone taken
  obtain ⟨cached,minted,released,sent⟩ := old
  cases taken with
  | solo taken =>
    have same := (serverClient taken).1
    refine ⟨fun k token here => ?_,fun t token here => ?_,fun t token here => gone (released t token here),
      fun id token here => gone (sent id token (serverSent taken here))⟩
    · rw [same] at here ⊢
      exact cached k token here
    · rw [same]
      exact minted t token here
  | @move t g l taken =>
    obtain ⟨same,taken⟩ := taken
    have handled := moveHandling taken
    have serials : ∀ owner, (c.shared.client owner).serial ≤ (g.client owner).serial := by
      intro owner
      by_cases mine : owner = (c.locals t).client
      · subst mine
        cases handled <;> omega
      · rw [moveOthers taken mine]
    refine ⟨fun k token here => ?_,fun u token here => ?_,fun u token here => ?_,fun id token here => ?_⟩
    · rw [setShared] at here ⊢
      refine lt_of_lt_of_le ?_ (serials token.owner)
      by_cases mine : k = (c.locals t).client
      · subst mine
        cases handled with
        | keeps kept =>
          rcases kept with kept | none
          · exact cached _ token (kept ▸ here)
          · simp [none] at here
        | mints kept => exact cached _ token (kept ▸ here)
        | caches other before kept =>
          rw [kept] at here
          exact minted t token (before.trans here)
        | takes _ _ _ none => simp [none] at here
      · rw [moveOthers taken mine] at here
        exact cached k token here
    · by_cases self : u = t
      · subst self
        rw [setSelf] at here
        rw [setShared]
        cases handled with
        | keeps _ _ set =>
          rcases set with kept | none
          · exact lt_of_lt_of_le (minted u token (kept ▸ here)) (serials token.owner)
          · simp [none] at here
        | mints _ serial set =>
          rw [set] at here
          obtain rfl := Option.some.inj here
          simp only at serial ⊢
          omega
        | caches _ _ _ _ set => simp [set] at here
        | takes _ _ _ _ _ set => simp [set] at here
      · rw [setOther c g l self] at here
        exact lt_of_lt_of_le (minted u token here) (serials token.owner)
    · by_cases self : u = t
      · subst self
        rw [setSelf] at here
        cases handled with
        | keeps _ _ _ release =>
          rcases release with kept | none
          · exact gone (released u token (kept ▸ here))
          · simp [none] at here
        | mints _ _ _ release => simp [release] at here
        | caches _ _ _ _ _ release => simp [release] at here
        | takes other before held none serial set release =>
          rw [release] at here
          obtain rfl := Option.some.inj here
          -- the only call behind cmd_mtx has no SET under way
          have owner := inv.owned.cached _ _ held
          refine ⟨lt_of_lt_of_le (cached _ _ held) (serials _),?_,fun v minting' => ?_⟩
          · rw [setShared, owner, none]
            nofun
          · by_cases other : v = u
            · subst other
              simp [set] at minting'
            · rw [setOther c g l other] at minting'
              obtain ⟨behind,carried⟩ := mintingInside minting'
              exact other (inv.guarded.alone v u behind (by rw [before]; trivial)
                ((inv.owned.called v _ carried).symm.trans owner))
      · rw [setOther c g l self] at here
        exact gone (released u token here)
    · rcases moveSent taken here with before | ⟨purpose,at',same⟩
      · exact gone (sent id token before)
      · obtain rfl := releasingCommand same.symm
        exact gone (released t token (by rw [at']; rfl))

theorem grantedSame {key : Key K} {lease : Token K → ℕ}
    (current : ∀ token deadline, key = some (token,deadline) → lease token = deadline) : granted key lease = lease := by
  cases key with
  | none => rfl
  | some held => exact Function.update_eq_self_iff.mpr (current held.1 held.2 rfl).symm

theorem grantedGiven {key : Key K} {lease : Token K → ℕ} {token : Token K} {deadline : ℕ}
    (given : key = some (token,deadline)) : granted key lease = Function.update lease token deadline := by
  rw [given]; rfl

theorem moveNow {k : K} {g g' : Shared K} {p p' : Pc K} (taken : Move k g p g' p') : g'.now = g.now := by
  rcases taken with guard | conn | call
  · cases guard <;> rfl
  · cases conn with
    | sendFails delivered => cases delivered <;> rfl
    | _ => rfl
  · cases call <;> rfl

theorem stepNow (taken : Step (system K ttl) c d) : c.shared.now ≤ d.shared.now := by
  cases taken with
  | solo taken =>
    cases taken with
    | tick => exact Nat.le_succ _
    | _ => exact le_rfl
  | move t taken => exact (moveNow taken.2).ge

theorem stepHistory (taken : Step (system K ttl) c d) : c.shared.history <+: d.shared.history := by
  cases taken with
  | solo taken =>
    obtain ⟨more,grown,-⟩ := serverTimed taken
    exact ⟨more,grown.symm⟩
  | move t taken => rw [setShared, (moveTimed taken.2).2.1]

theorem stepTrying (taken : Step (system K ttl) c d) {t : T} {n : ℕ} (here : trying (d.locals t).pc = some n) :
    trying (c.locals t).pc = some n ∨ (c.locals t).pc = .idle ∧ n = d.shared.history.length - 1 := by
  cases taken with
  | solo taken => exact .inl here
  | @move u g l taken =>
    by_cases self : t = u
    · subst self
      rw [setSelf] at here
      rw [setShared, (moveTimed taken.2).2.1]
      exact moveTrying taken.2 here
    · rw [setOther c g l self] at here
      exact .inl here

omit [DecidableEq K] in
theorem dropGrows {history history' : List (Option (Token K))} (grows : history <+: history') {n : ℕ}
    {token : Token K} (here : some token ∈ history.drop n) : some token ∈ history'.drop n := by
  obtain ⟨more,rfl⟩ := grows
  rw [List.drop_append]
  exact List.mem_append_left _ here

omit [DecidableEq K] in
theorem dropLast {history : List (Option (Token K))} {token : Token K}
    (last : history.getLast? = some (some token)) : some token ∈ history.drop (history.length - 1) := by
  obtain ⟨before,rfl⟩ := List.getLast?_eq_some_iff.mp last
  simp

theorem stepHeld {x : Timeline T K} (old : Leases x) (taken : Step (system K ttl) x.state d) {token : Token K}
    (within : d.shared.now < granted d.shared.key x.lease token) :
    d.shared.key = some (token,granted d.shared.key x.lease token) ∨ Gone d token := by
  have before : d.shared.now < x.lease token →
      x.state.shared.key = some (token,x.lease token) ∨ Gone d token := fun within =>
    (old.held token ((stepNow taken).trans_lt within)).imp_right fun gone => stepGone gone taken
  cases stepKey old.ledger taken with
  | same key =>
    rw [key, grantedSame old.current] at within ⊢
    exact before within
  | cleared key ended =>
    rw [key] at within ⊢
    have within : d.shared.now < x.lease token := within
    refine .inr ((before within).elim (fun held => ?_) id)
    exact (ended token _ held).elim (fun past => absurd (stepNow taken) (by omega)) (fun gone => stepGone gone taken)
  | given other deadline key grown free =>
    rw [grantedGiven key] at within ⊢
    by_cases same : token = other
    · subst same
      exact .inl (by rw [key, Function.update_self])
    · rw [Function.update_of_ne same] at within
      exact .inr ((before within).elim (fun held => absurd (free token _ held) same) id)

theorem stepCalled {x : Timeline T K} (old : Leases x) (taken : Step (system K ttl) x.state d) {t : T} {n : ℕ}
    (here : trying (d.locals t).pc = some n) {token : Token K}
    (within : (x.record d).began t < granted d.shared.key x.lease token) :
    some token ∈ d.shared.history.drop n ∨ Gone d token := by
  rcases stepTrying taken here with before | ⟨idle,rfl⟩
  · have busy : (x.state.locals t).pc ≠ .idle := fun idle => by rw [idle] at before; cases before
    simp only [Timeline.record, if_neg busy] at within
    have kept : x.began t < x.lease token → some token ∈ d.shared.history.drop n ∨ Gone d token := fun within =>
      (old.called t n before token within).imp (dropGrows (stepHistory taken)) (fun gone => stepGone gone taken)
    cases stepKey old.ledger taken with
    | same key =>
      rw [key, grantedSame old.current] at within
      exact kept within
    | cleared key ended =>
      rw [key] at within
      exact kept within
    | given other deadline key grown free =>
      rw [grantedGiven key] at within
      by_cases same : token = other
      · subst same
        have began : n ≤ x.state.shared.history.length := by
          have := old.inv.timed.began t
          cases h : (x.state.locals t).pc <;> simp_all [trying, since]
        rw [grown, List.drop_append_of_le_length began]
        exact .inl (by simp)
      · rw [Function.update_of_ne same] at within
        exact kept within
  · simp only [Timeline.record, if_pos idle] at within
    refine (stepHeld old taken within).imp_left fun held => dropLast ?_
    rw [(stepInvariant old.inv taken).timed.current, held]
    rfl

theorem stepLeases {x : Timeline T K} (old : Leases x) (taken : Step (system K ttl) x.state d) :
    Leases (x.record d) := by
  have inv := stepInvariant old.inv taken
  refine ⟨inv,stepLedger old.inv old.ledger taken,fun token deadline held => ?_,fun token within => stepHeld old taken within,
    fun t n here token within => ?_⟩
  · simp only [Timeline.record] at held ⊢
    rw [grantedGiven held, Function.update_self]
  · exact stepCalled old taken here within

theorem heldCached {k : K} {g g' : Shared K} {n m : ℕ} {token : Token K}
    (taken : Move k g (.fast n) g' (.wins m token)) : (g.client k).token = some token ∧ m = n := by
  rcases taken with guard | conn | call
  · cases guard
  · cases conn
  · cases call with
    | held cached => exact ⟨cached,rfl⟩

theorem leasedFresh {x : Timeline T K} (inv : Leases x) (taken : Step (system K ttl) x.state d)
    (fair : leased x d) : fresh x.state d := by
  intro t n token here wins
  cases taken with
  | solo taken =>
    rw [here] at wins
    cases wins
  | @move u g l taken =>
    have same : t = u := by
      by_contra other
      rw [setOther x.state g l other, here] at wins
      cases wins
    subst same
    have within := fair t n token here wins
    rw [setSelf] at wins
    have cached := taken.2
    rw [here, wins] at cached
    have mine := (heldCached cached).1
    refine (inv.called t n (by rw [here]; rfl) token within).resolve_right fun gone => gone.uncached ?_
    rw [inv.inv.owned.cached _ _ mine, mine]

omit [DecidableEq K] [DecidableEq T] in
theorem startLeases : Leases (Timeline.start of) := by
  refine ⟨startInvariant of,⟨?_,?_,?_,?_⟩,?_,fun token within => absurd within (lt_irrefl 0),?_⟩
  · intro k token here; cases here
  · intro t token here; cases here
  · intro t token here; cases here
  · intro id token here; cases here
  · intro token deadline here; cases here
  · intro t n here; cases here

theorem leasesOf {x : Timeline T K} (reached : Reachable (run ttl) (Timeline.start of) x) : Leases x :=
  reachableInvariant Leases startLeases
    (fun x y old (taken : run ttl x y) => by rw [taken.2.2]; exact stepLeases old taken.1) reached

/- In every run whose repeated calls begin within the lease, acquisition is honest. -/
theorem acquireLeased {x : Timeline T K} (reached : Reachable (run ttl) (Timeline.start of) x) : Sound ttl x.state := by
  induction reached with
  | refl =>
    have sound : Sound ttl (DistributedLock.start of) := soundOf (startInvariant of) nofun
    exact sound
  | tail before taken sound =>
    have leases := leasesOf before
    exact (stepSound leases.inv sound taken.1).mpr (leasedFresh leases taken.1 taken.2.1)

end Steps

section Uses

theorem askedRun {x : Timeline (Fin 2) (Fin 2)} {d : TwoClients} (asked : asking x.state d) :
    run ttl x (x.record d) :=
  ⟨asked.1,fun t n token here wins => (asked.2 t n token here wins).elim,rfl⟩

theorem lifts {x : Timeline (Fin 2) (Fin 2)} {d : TwoClients} (asked : Reachable asking x.state d) :
    ∃ y, Reachable (run ttl) x y ∧ y.state = d := by
  induction asked with
  | refl => exact ⟨x,.refl,rfl⟩
  | @tail c d _ taken ih =>
    obtain ⟨y,reached,rfl⟩ := ih
    exact ⟨y.record d,reached.tail (askedRun taken),rfl⟩

def zeroRenewed : TwoClients :=
  ⟨{zeroHolds.shared with now := 1, key := some (⟨0,0⟩,2), history := [none,some ⟨0,0⟩,some ⟨0,0⟩]},
    fun t => ⟨t,.idle⟩⟩

theorem zeroRenews : Reachable asking zeroHolds zeroRenewed := by
  have r0 : Reachable asking zeroHolds zeroHolds := .refl
  have r1 := r0.tail (askServer .tick)
  have r2 := r1.tail (ask 0 (.guard .callRenew) (.inr nofun))
  have r3 := r2.tail (ask 0 (.guard (.enterRenew rfl)) (.inr nofun))
  have r4 := r3.tail (ask 0 (.call (.renewReads rfl)) (.inr nofun))
  have r5 := r4.tail (ask 0 (.call (.renewAsks rfl)) (.inr nofun))
  have r6 := r5.tail (ask 0 (.conn (.sends rfl)) (.inr nofun))
  have r7 := r6.tail (askServer (.executes 0 rfl))
  have r8 := r7.tail (ask 0 (.conn (.reads rfl)) (.inr nofun))
  have r9 := r8.tail (ask 0 (.call .renewed) (.inr nofun))
  have r10 := r9.tail (ask 0 (.guard .leave) (.inr nofun))
  convert r10 using 1
  refine sameState rfl rfl rfl rfl (funext (Fin.forall_fin_two.mpr ⟨rfl,rfl⟩)) (funext fun id => ?_)
    (funext (Fin.forall_fin_two.mpr ⟨rfl,rfl⟩))
  cases id <;> rfl

def oneRefused : TwoClients :=
  ⟨{zeroRenewed.shared with
    history := [none,some ⟨0,0⟩,some ⟨0,0⟩,some ⟨0,0⟩], nextConn := 2
    client := Function.update zeroRenewed.shared.client 1 ⟨false,none,1,some ⟨1,false⟩⟩
    wire := Function.update zeroRenewed.shared.wire 1 (used 1)}, fun t => ⟨t,.idle⟩⟩

theorem oneAsks : Reachable asking zeroRenewed oneRefused := by
  have r0 : Reachable asking zeroRenewed zeroRenewed := .refl
  have r1 := r0.tail (ask 1 (.guard .callTry) (.inr nofun))
  have r2 := r1.tail (ask 1 (.guard (.enterTry rfl)) (.inr nofun))
  have r3 := r2.tail (ask 1 (.call (.notHeld rfl)) (.inr nofun))
  have r4 := r3.tail (ask 1 (.conn (.unusable nofun)) (.inr nofun))
  have r5 := r4.tail (ask 1 (.conn .connects) (.inr nofun))
  have r6 := r5.tail (ask 1 (.conn (.sends rfl)) (.inr nofun))
  have r7 := r6.tail (askServer (.executes 1 rfl))
  have r8 := r7.tail (ask 1 (.conn (.reads rfl)) (.inr nofun))
  have r9 := r8.tail (ask 1 (.call (.refused nofun)) (.inr nofun))
  have r10 := r9.tail (ask 1 (.guard .leave) (.inr nofun))
  convert r10 using 1
  refine sameState rfl rfl rfl rfl (funext (Fin.forall_fin_two.mpr ⟨rfl,rfl⟩)) (funext fun id => ?_)
    (funext (Fin.forall_fin_two.mpr ⟨rfl,rfl⟩))
  rcases id with _ | _ | id <;> rfl

theorem repeatedAcquire : ∃ x : Timeline (Fin 2) (Fin 2), Reachable (run ttl) (Timeline.start id) x ∧
    (x.state.locals 0).pc = .wins 3 ⟨0,0⟩ ∧ (x.began 0 = 1 ∧ x.lease ⟨0,0⟩ = 2) ∧ Sound ttl x.state := by
  have asked := (zeroAcquires.trans zeroRenews).trans oneAsks
  obtain ⟨⟨_,lease,began⟩,refused,rfl⟩ := lifts (x := Timeline.start id) asked
  have called := refused.tail (askedRun (ask 0 (.guard .callTry) (.inr nofun)))
  have entered := called.tail (askedRun (ask 0 (.guard (.enterTry rfl)) (.inr nofun)))
  have wins : ∀ {x : Timeline (Fin 2) (Fin 2)} {d : TwoClients}, Step (system (Fin 2) ttl) x.state d → leased x d →
      run ttl x (x.record d) := fun taken fair => ⟨taken,fair,rfl⟩
  have won := entered.tail (wins (callStep 0 (.call (.held rfl))) (Fin.forall_fin_two.mpr
    ⟨fun n token _ wins => by cases wins; exact Nat.one_lt_two,nofun⟩))
  exact ⟨_,won,rfl,⟨rfl,rfl⟩,acquireLeased won⟩

end Uses
end Uco.LockLease
