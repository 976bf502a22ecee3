import Uco.SleepChange

/-! Every step of every thread keeps the agreement, so each sleep is adjudicated once. -/
namespace Uco.SleepAdjudication
open Interleaving TimerHeap
open Sleeper (Slot Result)
open SleepSlot SleepChange

section Moves
variable {U K Θ : Type*} [DecidableEq U] [DecidableEq Θ] {home : K → Θ}
variable {c : State U K Θ} {g' : Shared U K Θ} {stage : U → Stage K Θ} {θ self : Θ} {f f' : Option Int}
variable {pc pc' : Pc U K} {u : U} {k : K} {s' : Stage K Θ}

theorem ownerChanged {s : Stage K Θ} (old : Agrees home c stage) (at' : c.locals θ = ⟨self,f,pc⟩) (stood : stage u = s)
    (runner : pc.runner = some k ∧ pc'.runner = some k) (was : s.owner = none ∨ s.owner = some k)
    (now : s'.owner = none ∨ s'.owner = some k)
    (role : pc.role = s.runs.map (Prod.mk u) ∧ pc'.role = s'.runs.map (Prod.mk u)) (plain : pc'.Plain)
    (sleeps : s'.sleeps = s.sleeps) (notice : s'.notice = s.notice) (here : Node g' u s')
    (others : ∀ v, v ≠ u → Kept c.shared g' v) (heaps : Heaps home g' (Function.update stage u s'))
    (kept : g'.sleeping = c.shared.sleeping ∧ g'.sync = c.shared.sync)
    (sound : g'.nullRead = false ∧ g'.stray = false ∧ g'.fatal = false) :
    Agrees home (c.set θ g' ⟨self,f,pc'⟩) (Function.update stage u s') := by
  have stands := old.stands θ
  rw [at'] at stands
  obtain ⟨thread,awake⟩ := stands.running k runner.1
  have own : ∀ {j tag}, s'.runs = some (j,tag) → home j = θ := by
    intro j tag runs
    rcases now with none | same
    · cases none.symm.trans (runsOwner runs)
    · cases Option.some.inj (same.symm.trans (runsOwner runs))
      exact thread
  refine agreesChanged old stood here others heaps ?_ (fun j _ => by rw [kept.1]) ?_ ?_ ?_ sound
  · exact elsewhereMine thread was now fun j token sent _ => notice.trans sent
  · refine standsPlain stands.self (fun j runs => ?_) (rolesChanged stands ?_ fun v j tag => ?_) plain
    · obtain rfl : j = k := Option.some.inj (runs.symm.trans runner.2)
      exact ⟨thread,by rwa [kept.1]⟩
    · exact fun v j tag mine => ((roleAt role.1 v j tag).mp mine).1
    · rw [roleAt role.2]
      exact and_congr_right fun _ => ⟨fun runs => ⟨runs,own runs⟩,And.left⟩
  · rw [kept.1]
    exact sleepersKept old.sleepers stood sleeps
  · exact noticesKept old.notices stood kept.2 fun j sent => notice.trans sent

theorem removeKept {r : Slot} (old : Agrees home c stage) (at' : c.locals θ = ⟨self,f,.remove k u r⟩) :
    ∃ stage', Agrees home (c.set θ (c.shared.store self ((c.shared.timers self).remove u)) ⟨self,f,.clear k u r⟩)
      stage' := by
  have stands := old.stands θ
  rw [at'] at stands
  obtain rfl : self = θ := stands.self
  obtain ⟨runs,thread⟩ := (stands.roles u k (.remove r)).mp rfl
  obtain ⟨heaped,woken,rfl,stood⟩ := runsInv runs
  obtain ⟨st,prom,inHeap,recorded⟩ := nodeAt old stood
  have member := old.heaps.member self u
  rw [stood] at member
  have known : c.shared.inHeap u = true ↔ u ∈ c.shared.heap self := by
    rw [inHeap, member]
    exact ⟨fun inside => ⟨inside,k,rfl,thread⟩,And.left⟩
  have placed := removePlaced (t := c.shared.timers self) (old.heaps.indexed self) known
  have stored := storedNode placed
  refine ⟨Function.update stage u (.clearing k woken),ownerChanged old at' stood ⟨rfl,rfl⟩ (.inr rfl) (.inr rfl)
    ⟨rfl,rfl⟩ trivial rfl rfl ⟨st,prom,stored,recorded⟩ (fun _ => storedOther placed)
    (heapsPlaced old.heaps stood thread rfl placed rfl rfl rfl nofun) ⟨rfl,rfl⟩ old.sound⟩

variable [DecidableEq K]

theorem pushKept (old : Agrees home c stage) (at' : c.locals θ = ⟨self,f,.push k u⟩) :
    ∃ stage', Agrees home (c.set θ {c.shared.store self ((c.shared.timers self).push u) with
      sleeping := Function.update c.shared.sleeping k (some u)} ⟨self,f,.scheduler⟩) stage' := by
  have stands := old.stands θ
  rw [at'] at stands
  obtain rfl : self = θ := stands.self
  obtain ⟨runs,thread⟩ := (stands.roles u k .push).mp rfl
  obtain ⟨token,stood⟩ := runsInv runs
  obtain ⟨st,prom,inHeap,recorded⟩ := nodeAt old stood
  have absent : u ∉ c.shared.heap self := fun inside => by
    have := ((old.heaps.member self u).mp inside).1
    rw [stood] at this
    cases this
  have placed := pushPlaced (t := c.shared.timers self) (old.heaps.indexed self) absent
  have stored := storedNode placed
  have same : (Stage.parked k true token).notice = (Stage.pushing k token).notice := by cases token <;> rfl
  refine ⟨Function.update stage u (.parked k true token),agreesChanged old stood ⟨st,prom,stored,?_⟩
    (fun _ => storedOther placed) (heapsPlaced old.heaps stood thread rfl placed rfl rfl rfl fun _ => rfl)
    (elsewhereMine thread (.inr rfl) (.inr rfl) fun j token sent _ => same.trans sent) (fun j away => ?_)
    (standsPlain rfl nofun (rolesChanged stands ?_ fun v j tag => ?_) trivial)
    (sleepersPut old.sleepers stood (stands.running k rfl).2 rfl rfl)
    (noticesKept old.notices stood rfl fun j sent => same.trans sent) old.sound⟩
  · cases token <;> exact recorded
  · exact Function.update_of_ne (fun same => away (by rwa [same])) ..
  · intro v j tag mine
    exact ((roleAt (s := .pushing k token) rfl v j tag).mp mine).1
  · simp [Pc.role, Stage.runs]

theorem sleepKept (old : Agrees home c stage) (at' : c.locals θ = ⟨self,f,pc⟩)
    (taken : SleepMove self c.shared pc g' pc') : ∃ stage', Agrees home (c.set θ g' ⟨self,f,pc'⟩) stage' := by
  have stands := old.stands θ
  rw [at'] at stands
  obtain rfl : self = θ := stands.self
  cases taken with
  | call v ns => exact plainKept old at' c.shared.pending rfl rfl (.inr rfl) trivial
  | consume some => exact plainKept old at' _ rfl rfl (.inr rfl) trivial
  | none zero => exact plainKept old at' c.shared.pending rfl rfl (.inr rfl) trivial
  | elapsed due => exact plainKept old at' c.shared.pending rfl rfl (.inr rfl) trivial
  | positive later => exact plainKept old at' c.shared.pending rfl rfl (.inr rfl) trivial
  | reject taken => exact plainKept old at' c.shared.pending rfl rfl (.inr rfl) trivial
  | returns => exact plainKept old at' c.shared.pending rfl rfl (.inr rfl) trivial
  | push out => exact pushKept old at'
  | remove => exact removeKept old at'
  | @pushAgain k v inside =>
    obtain ⟨runs,-⟩ := (stands.roles v k .push).mp rfl
    obtain ⟨token,stood⟩ := runsInv runs
    cases inside.symm.trans (nodeAt old stood).inHeap
  | @claim k v ns idle =>
    have stood : stage v = .free := (idleIff _).mp ((old.nodes v).st.symm.trans idle)
    obtain ⟨st,prom,inHeap,recorded⟩ := nodeAt old stood
    refine ⟨Function.update stage v (.registering k),ownerChanged old at' stood ⟨rfl,rfl⟩ (.inl rfl) (.inr rfl) ⟨rfl,rfl⟩
      trivial rfl rfl ⟨Function.update_self ..,prom,inHeap,?_⟩ (fun w other => ?_)
      (heapsKept old.heaps stood rfl rfl rfl (by rintro ⟨⟩)) ⟨rfl,rfl⟩ old.sound⟩
    · simp [Stage.Recorded]
    · simp [Kept, other]
  | @register k v ns now =>
    obtain ⟨runs,-⟩ := (stands.roles v k .register).mp rfl
    have stood := runsInv runs
    obtain ⟨st,prom,inHeap,recorded⟩ := nodeAt old stood
    refine ⟨Function.update stage v (.parking k),ownerChanged old at' stood ⟨rfl,rfl⟩ (.inr rfl) (.inr rfl) ⟨rfl,rfl⟩
      trivial rfl rfl ⟨st,Function.update_self ..,inHeap,recorded⟩ (fun w other => ?_)
      (heapsKept old.heaps stood rfl rfl rfl (by rintro ⟨⟩)) ⟨rfl,rfl⟩ old.sound⟩
    simp [Kept, other]
  | @park k v =>
    obtain ⟨runs,-⟩ := (stands.roles v k .park).mp rfl
    have stood := runsInv runs
    obtain ⟨st,prom,inHeap,recorded⟩ := nodeAt old stood
    refine ⟨Function.update stage v (.pushing k none),ownerChanged old at' stood ⟨rfl,rfl⟩ (.inr rfl) (.inr rfl)
      ⟨rfl,rfl⟩ trivial rfl rfl ⟨Function.update_self ..,prom,inHeap,recorded⟩ (fun w other => ?_)
      (heapsKept old.heaps stood rfl rfl rfl (by rintro ⟨⟩)) ⟨rfl,rfl⟩ old.sound⟩
    simp [Kept, other]
  | @load k v =>
    obtain ⟨runs,-⟩ := (stands.roles v k .load).mp rfl
    obtain ⟨heaped,woken,stood⟩ := runsInv runs
    obtain ⟨st,prom,inHeap,recorded⟩ := nodeAt old stood
    refine ⟨Function.update stage v (.removing k heaped woken),ownerChanged old at' stood ⟨rfl,rfl⟩ (.inr rfl) (.inr rfl)
      ⟨rfl,?_⟩ trivial rfl rfl ⟨st,prom,inHeap,recorded⟩ (fun w other => ⟨rfl,rfl,rfl,rfl,rfl⟩)
      (heapsKept old.heaps stood rfl rfl rfl fun _ => rfl) ⟨rfl,rfl⟩ old.sound⟩
    simp [Pc.role, Stage.runs, st, Stage.st]
  | @clear k v r =>
    obtain ⟨runs,-⟩ := (stands.roles v k (.clear r)).mp rfl
    obtain ⟨woken,rfl,stood⟩ := runsInv runs
    obtain ⟨st,prom,inHeap,recorded⟩ := nodeAt old stood
    refine ⟨Function.update stage v (.freeing k woken),ownerChanged old at' stood ⟨rfl,rfl⟩ (.inr rfl) (.inr rfl)
      ⟨rfl,rfl⟩ trivial rfl rfl ⟨st,Function.update_self ..,inHeap,recorded⟩ (fun w other => ?_)
      (heapsKept old.heaps stood rfl rfl rfl (by rintro ⟨⟩)) ⟨rfl,rfl⟩ old.sound⟩
    simp [Kept, other]
  | @free k v r =>
    obtain ⟨runs,-⟩ := (stands.roles v k (.free r)).mp rfl
    obtain ⟨woken,rfl,stood⟩ := runsInv runs
    obtain ⟨st,prom,inHeap,recorded⟩ := nodeAt old stood
    refine ⟨Function.update stage v .free,ownerChanged old at' stood ⟨rfl,rfl⟩ (.inr rfl) (.inl rfl) ⟨rfl,rfl⟩
      trivial rfl rfl ⟨Function.update_self ..,prom,inHeap,?_⟩ (fun w other => ?_)
      (heapsKept old.heaps stood rfl rfl rfl (by rintro ⟨⟩)) ⟨rfl,rfl⟩ old.sound⟩
    · obtain ⟨winners,resumes⟩ := recorded
      simp [Stage.Recorded, winners, resumes]
    · simp [Kept, other]

omit [DecidableEq K] in
theorem signalChanged (old : Agrees home c stage) (at' : c.locals θ = ⟨self,f,pc⟩) (token' : Token Θ)
    (role : pc.role = none ∧ pc'.role = none) (runner : pc'.runner = pc.runner)
    (mine : ∀ k token, (stage u).notice = some (k,token) → token = .won θ ∨ token = .sending θ)
    (here : Node g' u ((stage u).signal token')) (others : ∀ v, v ≠ u → Kept c.shared g' v)
    (kept : g'.heap = c.shared.heap ∧ g'.idx = c.shared.idx ∧ g'.sleeping = c.shared.sleeping)
    (waker : ∀ v, pc' ≠ .popped v ∧ pc' ≠ .fired v)
    (won : ∀ b v, pc' = .wakeWon b v → v = u ∧ ∃ k, ((stage u).signal token').notice = some (k,.won θ))
    (sending : ∀ b k, pc' = .wakePush b k → ((stage u).signal token').notice = some (k,.sending θ))
    (notices : Notices home g' (Function.update stage u ((stage u).signal token')))
    (sound : g'.nullRead = false ∧ g'.stray = false ∧ g'.fatal = false) :
    Agrees home (c.set θ g' ⟨self,f,pc'⟩) (Function.update stage u ((stage u).signal token')) := by
  have stands := old.stands θ
  rw [at'] at stands
  obtain ⟨heap,idx,sleeping⟩ := kept
  refine agreesChanged old rfl here others (heapsKept old.heaps rfl heap idx (signalHeaped ..) fun _ => signalOwner ..)
    (elsewhereSignal token' mine) (fun j _ => by rw [sleeping]) ⟨stands.self,fun j runs => ?_,fun v j tag => ?_,
      fun v here => absurd here (waker v).1,fun v here => absurd here (waker v).2,fun b v here => ?_,fun b j here => ?_⟩
    (fun j v => ?_) notices sound
  · rw [sleeping]
    exact stands.running j (runner.symm.trans runs)
  · rw [role.2, ← role.1]
    refine (stands.roles v j tag).trans ?_
    by_cases same : v = u
    · subst same
      rw [Function.update_self, signalRuns]
    · rw [Function.update_of_ne same]
  · obtain ⟨rfl,k,sent⟩ := won b v here
    exact ⟨k,by rwa [Function.update_self]⟩
  · exact ⟨u,by rw [Function.update_self]; exact sending b j here⟩
  · rw [sleeping]
    exact sleepersKept old.sleepers rfl (signalSleeps ..) j v

omit [DecidableEq K] in
theorem wakeKept (old : Agrees home c stage) (at' : c.locals θ = ⟨self,f,pc⟩)
    (taken : WakeMove home c.shared pc g' pc') : ∃ stage', Agrees home (c.set θ g' ⟨self,f,pc'⟩) stage' := by
  have stands := old.stands θ
  rw [at'] at stands
  cases taken with
  | call v => exact plainKept old at' c.shared.pending rfl rfl (.inr rfl) trivial
  | callOutside v => exact plainKept old at' c.shared.pending rfl rfl (.inl rfl) trivial
  | lose other => exact plainKept old at' c.shared.pending rfl rfl (.inr rfl) trivial
  | @add b v => cases b <;> exact plainKept old at' _ rfl rfl (.inr rfl) trivial
  | @win b v parked =>
    have node := old.nodes v
    obtain ⟨k,stood⟩ := parkedCases (node.st.symm.trans parked)
    obtain ⟨st,prom,inHeap,recorded⟩ := node
    have quiet : (stage v).notice = none := by rcases stood with stood | ⟨heaped,stood⟩ <;> rw [stood] <;> rfl
    have mine : ∀ j token, (stage v).notice = some (j,token) → token = .won θ ∨ token = .sending θ := by
      rw [quiet]
      rintro _ _ ⟨⟩
    refine ⟨_,signalChanged old at' (.won θ) ⟨rfl,rfl⟩ rfl mine ?_ (fun w other => ?_) ⟨rfl,rfl,rfl⟩
      (fun w => ⟨by rintro ⟨⟩,by rintro ⟨⟩⟩) (fun b w here => ?_) (by rintro _ _ ⟨⟩) (noticesKept old.notices rfl rfl fun j sent => ?_) old.sound⟩
    · rcases stood with stood | ⟨heaped,stood⟩ <;> rw [stood] at prom inHeap recorded ⊢ <;>
        exact ⟨Function.update_self ..,prom,inHeap,by simp [Stage.signal, Stage.Recorded, recorded.1, recorded.2]⟩
    · simp [Kept, other]
    · cases here
      refine ⟨rfl,k,?_⟩
      rcases stood with stood | ⟨heaped,stood⟩ <;> rw [stood] <;> rfl
    · cases quiet.symm.trans sent
  | @read b v k there =>
    obtain ⟨j,sent⟩ := stands.won b v rfl
    obtain rfl : k = j := Option.some.inj (there.symm.trans (noticeProm (old.nodes v) sent))
    have mine : ∀ j token, (stage v).notice = some (j,token) → token = .won θ ∨ token = .sending θ := by
      intro j token again
      exact .inl (Prod.mk.inj (Option.some.inj (again.symm.trans sent))).2
    refine ⟨_,signalChanged old at' (.sending θ) ⟨rfl,rfl⟩ rfl mine (nodeSignal (old.nodes v) sent _)
      (fun w other => ⟨rfl,rfl,rfl,rfl,rfl⟩) ⟨rfl,rfl,rfl⟩ (fun w => ⟨by rintro ⟨⟩,by rintro ⟨⟩⟩)
      (by rintro _ _ ⟨⟩) (fun b j here => ?_)
      (noticesKept old.notices rfl rfl fun j again => ?_) old.sound⟩
    · cases here
      exact signalNotice sent _
    · cases sent.symm.trans again
  | @readNull b v null =>
    obtain ⟨j,sent⟩ := stands.won b v rfl
    cases null.symm.trans (noticeProm (old.nodes v) sent)
  | @push b k =>
    obtain ⟨v,sent⟩ := stands.sending b k rfl
    have mine : ∀ j token, (stage v).notice = some (j,token) → token = .won θ ∨ token = .sending θ := by
      intro j token again
      exact .inr (Prod.mk.inj (Option.some.inj (again.symm.trans sent))).2
    have fresh : k ∉ c.shared.sync (home k) := fun queued => by
      obtain ⟨-,w,again⟩ := old.notices.queued _ k queued
      obtain rfl := ownerUnique old (noticeOwner sent) (noticeOwner again)
      cases sent.symm.trans again
    obtain ⟨st,prom,inHeap,recorded⟩ := nodeSignal (old.nodes v) sent .queued
    refine ⟨_,signalChanged old at' .queued ⟨rfl,?_⟩ ?_ mine ⟨st,prom,inHeap,recorded⟩
      (fun w other => ⟨rfl,rfl,rfl,rfl,rfl⟩) ⟨rfl,rfl,rfl⟩ (fun w => ?_) (fun b w here => ?_) (fun b j here => ?_)
      (noticesPush old.notices rfl fresh (fun j again => ?_) (signalNotice sent _)) old.sound⟩
    · cases b <;> rfl
    · cases b <;> rfl
    · cases b <;> exact ⟨by rintro ⟨⟩,by rintro ⟨⟩⟩
    · rename_i back
      cases back <;> cases here
    · rename_i back
      cases back <;> cases here
    · cases sent.symm.trans again

theorem resumedChanged {s : Stage K Θ} {heaped woken : Bool} (old : Agrees home c stage)
    (at' : c.locals θ = ⟨self,f,pc⟩) (stood : stage u = s) (thread : home k = θ) (role : pc.role = none)
    (own : s.owner = some k) (sleeps : s.sleeps = some k) (same : s.heaped = heaped)
    (queued : ∀ j token, s.notice = some (j,token) → token = .queued)
    (here : Node g' u (.resumed k heaped woken)) (others : ∀ v, v ≠ u → Kept c.shared g' v)
    (kept : g'.heap = c.shared.heap ∧ g'.idx = c.shared.idx)
    (sleeping : g'.sleeping = Function.update c.shared.sleeping k none)
    (notices : Notices home g' (Function.update stage u (.resumed k heaped woken)))
    (sound : g'.nullRead = false ∧ g'.stray = false ∧ g'.fatal = false) :
    Agrees home (c.set θ g' ⟨self,f',.load k u⟩) (Function.update stage u (.resumed k heaped woken)) := by
  have stands := old.stands θ
  rw [at'] at stands
  have awake : g'.sleeping k = none := by rw [sleeping, Function.update_self]
  refine agreesChanged old stood here others (heapsKept old.heaps stood kept.1 kept.2 same.symm fun _ => own.symm)
    (elsewhereMine thread (.inr own) (.inr rfl) fun j token sent other => absurd (queued j token sent) other)
    (fun j away => ?_) (standsPlain stands.self (fun j runs => ?_) (rolesChanged stands ?_ fun v j tag => ?_) trivial)
    (fun j v => ?_) notices sound
  · rw [sleeping]
    exact Function.update_of_ne (fun same => away (by rwa [same])) ..
  · cases Option.some.inj runs
    exact ⟨thread,awake⟩
  · rw [role]
    exact nofun
  · rw [roleAt (s := .resumed k heaped woken) rfl]
    exact and_congr_right fun _ => ⟨fun runs => ⟨runs,Option.some.inj (runsOwner runs) ▸ thread⟩,And.left⟩
  · rw [sleeping]
    exact sleepersTaken old.sleepers (stood ▸ sleeps) rfl j v

omit [DecidableEq K] in
theorem popKept {now : Int} (old : Agrees home c stage) (at' : c.locals θ = ⟨self,some now,.scheduler⟩)
    (front : (c.shared.heap self)[0]? = some u) :
    ∃ stage', Agrees home (c.set θ (c.shared.store self ((c.shared.timers self).popFront u)) ⟨self,some now,.popped u⟩)
      stage' := by
  have stands := old.stands θ
  rw [at'] at stands
  obtain rfl : self = θ := stands.self
  obtain ⟨inside,k,own,thread⟩ := (old.heaps.member self u).mp (List.mem_of_getElem? front)
  have resting : ∀ j tag, (stage u).runs = some (j,tag) → home j ≠ self := fun j tag runs here => by
    cases (stands.roles u j tag).mpr ⟨runs,here⟩
  obtain ⟨token,stood⟩ : ∃ token, stage u = .parked k true token := by
    rcases ownerActs own with ⟨tag,runs⟩ | asleep
    · exact absurd thread (resting k tag runs)
    · cases stood : stage u with
      | parked j heaped token =>
        rw [stood] at inside own
        cases Option.some.inj own
        cases inside
        exact ⟨token,rfl⟩
      | expired j =>
        rw [stood] at inside
        cases inside
      | _ =>
        rw [stood] at asleep
        cases asleep
  obtain ⟨st,prom,inHeap,recorded⟩ := nodeAt old stood
  have placed := popFrontPlaced (t := c.shared.timers self) (old.heaps.indexed self) front
  have stored := storedNode placed
  have same : (Stage.parked k false token).notice = (Stage.parked k true token).notice := by cases token <;> rfl
  refine ⟨Function.update stage u (.parked k false token),agreesChanged old stood ⟨st,prom,stored,?_⟩
    (fun _ => storedOther placed) (heapsPlaced old.heaps stood thread rfl placed rfl rfl rfl nofun)
    (elsewhereMine thread (.inr rfl) (.inr rfl) fun j token sent _ => same.trans sent) (fun j _ => rfl)
    ⟨stands.self,nofun,rolesChanged stands nofun fun v j tag => ?_,fun v here => ?_,nofun,nofun,nofun⟩
    (sleepersKept old.sleepers stood rfl) (noticesKept old.notices stood rfl fun j sent => same.trans sent) old.sound⟩
  · cases token <;> exact recorded
  · simp [Pc.role, Stage.runs]
  · cases here
    exact ⟨k,token,Function.update_self ..,thread⟩

omit [DecidableEq K] in
theorem expireKept (old : Agrees home c stage) (at' : c.locals θ = ⟨self,f,.popped u⟩)
    (parked : c.shared.st u = .parked) : ∃ stage', Agrees home (c.set θ {c.shared with
      st := Function.update c.shared.st u .expired
      winners := Function.update c.shared.winners u (c.shared.winners u ++ [.expired])} ⟨self,f,.fired u⟩) stage' := by
  have stands := old.stands θ
  rw [at'] at stands
  obtain ⟨k,token,stood,thread⟩ := stands.popped u rfl
  obtain ⟨st,prom,inHeap,recorded⟩ := nodeAt old stood
  obtain rfl : token = none := by
    rw [parked] at st
    cases token with
    | none => rfl
    | some token => cases st
  refine ⟨Function.update stage u (.expired k),agreesChanged old stood ⟨Function.update_self ..,prom,inHeap,?_⟩
    (fun v other => ?_) (heapsKept old.heaps stood rfl rfl rfl (by rintro ⟨⟩)) (elsewhereMine thread (.inr rfl) (.inr rfl) nofun)
    (fun j _ => rfl) ⟨stands.self,nofun,rolesChanged stands nofun fun v j tag => ?_,nofun,fun v here => ?_,nofun,nofun⟩
    (sleepersKept old.sleepers stood rfl) (noticesKept old.notices stood rfl nofun) old.sound⟩
  · simp [Stage.Recorded, recorded.1, recorded.2]
  · simp [Kept, other]
  · simp [Pc.role, Stage.runs]
  · cases here
    exact ⟨k,Function.update_self ..,thread⟩

theorem threadKept (old : Agrees home c stage) (at' : c.locals θ = ⟨self,f,pc⟩)
    (taken : ThreadMove home self c.shared f pc g' f' pc') :
    ∃ stage', Agrees home (c.set θ g' ⟨self,f',pc'⟩) stage' := by
  have stands := old.stands θ
  rw [at'] at stands
  obtain rfl : self = θ := stands.self
  cases taken with
  | run mine awake =>
    refine ⟨stage,agreesPlain (p := c.shared.pending) old at' rfl rfl rfl (fun j runs => ?_) trivial⟩
    cases Option.some.inj runs
    exact ⟨mine,awake⟩
  | switch k' mine awake =>
    refine ⟨stage,agreesPlain (p := c.shared.pending) old at' rfl rfl rfl (fun j runs => ?_) trivial⟩
    cases Option.some.inj runs
    exact ⟨mine,awake⟩
  | yield => exact plainKept old at' c.shared.pending rfl rfl (.inl rfl) trivial
  | fire now => exact plainKept old at' c.shared.pending rfl rfl (.inl rfl) trivial
  | ended later => exact plainKept old at' c.shared.pending rfl rfl (.inl rfl) trivial
  | lost other => exact plainKept old at' c.shared.pending rfl rfl (.inl rfl) trivial
  | pop front due => exact popKept old at' front
  | expire parked => exact expireKept old at' parked
  | @deliver k rest v next asleep =>
    obtain ⟨thread,w,sent⟩ := old.notices.queued self k (by simp [next])
    have sleeps := (old.sleepers k v).mp asleep
    obtain rfl := ownerUnique old (sleepsOwner sleeps) (noticeOwner sent)
    obtain ⟨heaped,stood⟩ : ∃ heaped, stage v = .parked k heaped (some .queued) := by
      rcases noticeCases sent with stood | stood
      · rw [stood] at sleeps
        cases sleeps
      · exact stood
    obtain ⟨st,prom,inHeap,recorded⟩ := nodeAt old stood
    refine ⟨Function.update stage v (.resumed k heaped true),resumedChanged old at' stood thread rfl rfl rfl rfl
      (fun j token again => ?_) ⟨st,prom,inHeap,?_⟩ (fun w other => ?_) ⟨rfl,rfl⟩ rfl
      (noticesPop old.notices next rfl sent) old.sound⟩
    · exact (Prod.mk.inj (Option.some.inj again)).2.symm
    · exact ⟨recorded.1,by simp [Shared.wakeUp, recorded.2]⟩
    · simp [Kept, Shared.wakeUp, other]
  | @deliverStray k rest next awake =>
    obtain ⟨thread,w,sent⟩ := old.notices.queued self k (by simp [next])
    rcases noticeCases sent with stood | ⟨heaped,stood⟩
    · cases (stands.roles w k .push).mpr ⟨by rw [stood]; rfl,thread⟩
    · have asleep := (old.sleepers k w).mpr (by rw [stood]; rfl)
      cases asleep.symm.trans awake
  | @resume f v w k there asleep =>
    obtain ⟨j,stood,thread⟩ := stands.fired v rfl
    obtain ⟨st,prom,inHeap,recorded⟩ := nodeAt old stood
    obtain rfl : k = j := Option.some.inj (there.symm.trans prom)
    obtain rfl : v = w := by
      have own : (stage v).owner = some k := by rw [stood]; rfl
      exact ownerUnique old own (sleepsOwner ((old.sleepers k w).mp asleep))
    refine ⟨Function.update stage v (.resumed k false false),resumedChanged old at' stood thread rfl rfl rfl rfl nofun
      ⟨st,prom,inHeap,?_⟩ (fun w other => ?_) ⟨rfl,rfl⟩ rfl (noticesKept old.notices stood rfl nofun) old.sound⟩
    · exact ⟨recorded.1,by simp [Shared.wakeUp, recorded.2]⟩
    · simp [Kept, Shared.wakeUp, other]
  | @resumeStray f v k there awake =>
    obtain ⟨j,stood,thread⟩ := stands.fired v rfl
    obtain rfl : k = j := Option.some.inj (there.symm.trans (nodeAt old stood).prom)
    have asleep := (old.sleepers k v).mpr (by rw [stood]; rfl)
    cases asleep.symm.trans awake
  | @resumeNull f v null =>
    obtain ⟨j,stood,thread⟩ := stands.fired v rfl
    cases null.symm.trans (nodeAt old stood).prom

theorem stepAgrees {d : State U K Θ} (old : Agrees home c stage) (taken : Step (system home) c d) :
    ∃ stage', Agrees home d stage' := by
  cases taken with
  | solo taken => exact taken.elim
  | @move θ g l taken =>
    simp only [system] at taken
    generalize at' : c.locals θ = l₀ at taken
    cases taken with
    | sleep taken => exact sleepKept old at' taken
    | wake taken => exact wakeKept old at' taken
    | thread taken => exact threadKept old at' taken

theorem reachableAgrees {uco : Θ → Bool} (run : Reachable (Step (system home)) (start U K uco) c) :
    ∃ stage, Agrees home c stage :=
  reachableInvariant (fun c => ∃ stage, Agrees home c stage) ⟨_,startAgrees home uco⟩
    (fun _ _ ⟨_,old⟩ taken => stepAgrees old taken) run

end Moves

section Results
variable {U K Θ : Type*}

def fields (g : Shared U K Θ) (u : U) : Slot × Option K × Option Θ × Int × ℕ × Bool :=
  (g.st u,g.prom u,g.tid u,g.deadline u,g.idx u,g.inHeap u)

variable [DecidableEq U] [DecidableEq K] [DecidableEq Θ] (home : K → Θ)

/- At most one waker or timer_on_fire has taken the current sleep out of PARKED, and its
coroutine was resumed at most once, after that. A winner finds the coroutine and hands it
on unresumed; the sleep returns its winner's result, its node idle and in no heap. -/
structure Adjudicated (c : State U K Θ) : Prop where
  winner : ∀ u, (c.shared.winners u).length ≤ 1
  once : ∀ u, c.shared.resumes u ≤ (c.shared.winners u).length
  woken : ∀ θ b u, (c.locals θ).pc = .wakeWon b u →
    (∃ k, c.shared.prom u = some k) ∧ c.shared.winners u = [.woken] ∧ c.shared.resumes u = 0
  expired : ∀ θ u, (c.locals θ).pc = .fired u →
    (∃ k, c.shared.prom u = some k) ∧ c.shared.winners u = [.expired] ∧ c.shared.resumes u = 0
  neverNull : c.shared.nullRead = false
  neverStray : c.shared.stray = false
  neverFatal : c.shared.fatal = false
  fresh : ∀ θ k u, (c.locals θ).pc = .push k u → c.shared.inHeap u = false
  asking : ∀ θ k u ns g l, (c.locals θ).pc = .exchange k u ns ∨ (c.locals θ).pc = .duration k u ns →
    Move home c.shared (c.locals θ) g l → fields g = fields c.shared ∧
      ∀ r, l.pc = .returned k r → r = .woken ∧ 0 < c.shared.pending u ∨ r = .expired ∧ ns ≤ 0
  busy : ∀ θ k u ns g l, (c.locals θ).pc = .claim k u ns → c.shared.st u ≠ .idle →
    Move home c.shared (c.locals θ) g l → g = c.shared ∧ l.pc = .returned k .busy
  returns : ∀ θ k u s g l, (c.locals θ).pc = .free k u s → Move home c.shared (c.locals θ) g l →
    l.pc = .returned k (resultOf s) ∧ g.winners u = [resultOf s] ∧ g.resumes u = 1 ∧
      g.st u = .idle ∧ g.prom u = none ∧ g.inHeap u = false ∧ ∀ φ, u ∉ g.heap φ

variable {home} {c : State U K Θ} {stage : U → Stage K Θ}

omit [DecidableEq U] [DecidableEq K] [DecidableEq Θ] in
theorem recordedBounds {s : Stage K Θ} {winners : List Result} {resumes : ℕ} (recorded : s.Recorded winners resumes) :
    winners.length ≤ 1 ∧ resumes ≤ winners.length := by
  cases s with
  | free => exact ⟨recorded.1,recorded.2.le⟩
  | pushing k token => cases token <;> simp [recorded.1, recorded.2]
  | parked k heaped token => cases token <;> simp [recorded.1, recorded.2]
  | _ => simp [recorded.1, recorded.2]

theorem askingKept {k : K} {u : U} {ns : Int} {g : Shared U K Θ} {l l' : Local U K Θ}
    (here : l.pc = .exchange k u ns ∨ l.pc = .duration k u ns) (taken : Move home c.shared l g l') :
    fields g = fields c.shared ∧
      ∀ r, l'.pc = .returned k r → r = .woken ∧ 0 < c.shared.pending u ∨ r = .expired ∧ ns ≤ 0 := by
  cases taken with
  | sleep taken =>
    rcases here with here | here
    · cases here
      cases taken with
      | consume some => exact ⟨rfl,fun r same => .inl ⟨by cases same; rfl,some⟩⟩
      | none zero => exact ⟨rfl,nofun⟩
    · cases here
      cases taken with
      | elapsed due => exact ⟨rfl,fun r same => .inr ⟨by cases same; rfl,due⟩⟩
      | positive later => exact ⟨rfl,nofun⟩
  | wake taken => rcases here with here | here <;> cases here <;> cases taken
  | thread taken => rcases here with here | here <;> cases here <;> cases taken

theorem busyKept {k : K} {u : U} {ns : Int} {g : Shared U K Θ} {l l' : Local U K Θ} (here : l.pc = .claim k u ns)
    (other : c.shared.st u ≠ .idle) (taken : Move home c.shared l g l') : g = c.shared ∧ l'.pc = .returned k .busy := by
  cases taken with
  | sleep taken =>
    cases here
    cases taken with
    | claim idle => exact absurd idle other
    | reject => exact ⟨rfl,rfl⟩
  | wake taken => cases here; cases taken
  | thread taken => cases here; cases taken

theorem returnKept {θ : Θ} {k : K} {u : U} {r : Slot} {g : Shared U K Θ} {l : Local U K Θ} (old : Agrees home c stage)
    (here : (c.locals θ).pc = .free k u r) (taken : Move home c.shared (c.locals θ) g l) :
    l.pc = .returned k (resultOf r) ∧ g.winners u = [resultOf r] ∧ g.resumes u = 1 ∧
      g.st u = .idle ∧ g.prom u = none ∧ g.inHeap u = false ∧ ∀ φ, u ∉ g.heap φ := by
  obtain ⟨runs,-⟩ := ((old.stands θ).roles u k (.free r)).mp (by rw [here]; rfl)
  obtain ⟨woken,rfl,stood⟩ := runsInv runs
  obtain ⟨st,prom,inHeap,recorded⟩ := old.nodes u
  have out : ∀ φ, u ∉ c.shared.heap φ := fun φ inside => by
    have := ((old.heaps.member φ u).mp inside).1
    rw [stood] at this
    cases this
  rw [stood] at prom inHeap recorded
  generalize c.locals θ = l₀ at here taken
  cases taken with
  | sleep taken =>
    cases here
    cases taken
    exact ⟨rfl,recorded.1,recorded.2,Function.update_self ..,prom,inHeap,out⟩
  | wake taken => cases here; cases taken
  | thread taken => cases here; cases taken

/- Each sleep is adjudicated exactly once, whatever the threads do. -/
theorem sleepAdjudicated (home : K → Θ) (uco : Θ → Bool) {c : State U K Θ}
    (run : Reachable (Step (system home)) (start U K uco) c) : Adjudicated home c := by
  obtain ⟨stage,agrees⟩ := reachableAgrees run
  refine ⟨fun u => (recordedBounds (agrees.nodes u).recorded).1,fun u => (recordedBounds (agrees.nodes u).recorded).2,
    fun θ b u here => ?_,fun θ u here => ?_,agrees.sound.1,agrees.sound.2.1,agrees.sound.2.2,fun θ k u here => ?_,
    fun θ k u ns g l here taken => askingKept here taken,
    fun θ k u ns g l here other taken => busyKept here other taken,
    fun θ k u r g l here taken => returnKept agrees here taken⟩
  · obtain ⟨k,sent⟩ := (agrees.stands θ).won b u here
    obtain ⟨st,prom,inHeap,recorded⟩ := agrees.nodes u
    rcases noticeCases sent with stood | ⟨heaped,stood⟩ <;> rw [stood] at prom recorded <;>
      exact ⟨⟨k,prom⟩,recorded⟩
  · obtain ⟨k,stood,-⟩ := (agrees.stands θ).fired u here
    have node := nodeAt agrees stood
    exact ⟨⟨k,node.prom⟩,node.recorded⟩
  · obtain ⟨runs,-⟩ := ((agrees.stands θ).roles u k .push).mp (by rw [here]; rfl)
    obtain ⟨token,stood⟩ := runsInv runs
    rw [(agrees.nodes u).inHeap, stood]
    rfl

theorem wokenOnce : ∃ c : State Unit Unit Bool,
    Reachable (Step (system fun _ => true)) (start Unit Unit id) c ∧ (c.locals true).pc = .free () () .woken ∧
      c.shared.winners () = [.woken] ∧ c.shared.resumes () = 1 ∧ Adjudicated (fun _ => true) c := by
  have r1 : Reachable (Step (system fun _ : Unit => true)) (start Unit Unit id) _ :=
    .single (.move true (.thread (.run (k := ()) rfl rfl)))
  have r2 := r1.tail (.move true (.sleep (.call () 5)))
  have r3 := r2.tail (.move true (.sleep (.none rfl)))
  have r4 := r3.tail (.move true (.sleep (.positive (by decide))))
  have r5 := r4.tail (.move true (.sleep (.claim rfl)))
  have r6 := r5.tail (.move true (.sleep (.register 0)))
  have r7 := r6.tail (.move true (.sleep .park))
  have r8 := r7.tail (.move true (.sleep (.push rfl)))
  have r9 := r8.tail (.move false (.wake (.callOutside ())))
  have r10 := r9.tail (.move false (.wake (.win rfl)))
  have r11 := r10.tail (.move false (.wake (.read rfl)))
  have r12 := r11.tail (.move false (.wake .push))
  have r13 := r12.tail (.move true (.thread (.deliver rfl rfl)))
  have r14 := r13.tail (.move true (.sleep .load))
  have r15 := r14.tail (.move true (.sleep .remove))
  have r16 := r15.tail (.move true (.sleep .clear))
  exact ⟨_,r16,rfl,rfl,rfl,sleepAdjudicated _ _ r16⟩

end Results
end Uco.SleepAdjudication
