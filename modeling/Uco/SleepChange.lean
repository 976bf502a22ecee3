import Uco.SleepSlot

/-! What a step about one node leaves of the agreement between the nodes, the heaps, the
threads, the sleeping coroutines and the notices under way, part by part. -/
namespace Uco.SleepChange
open Interleaving TimerHeap
open Sleeper (Slot Result)
open SleepSlot

section Plain
variable {U K Θ : Type*} {home : K → Θ} {g : Shared U K Θ} {stage : U → Stage K Θ} {θ : Θ}

theorem standsPlain {l : Local U K Θ} (self : l.self = θ)
    (running : ∀ k, l.pc.runner = some k → home k = θ ∧ g.sleeping k = none)
    (roles : ∀ v k tag, l.pc.role = some (v,k,tag) ↔ (stage v).runs = some (k,tag) ∧ home k = θ)
    (plain : l.pc.Plain) : Stands home g stage θ l := by
  refine ⟨self,running,roles,fun v here => ?_,fun v here => ?_,fun b v here => ?_,fun b v here => ?_⟩
  all_goals
    rw [here] at plain
    exact plain.elim

variable [DecidableEq Θ]

theorem agreesPlain {c : State U K Θ} {p : U → ℕ} {l l' : Local U K Θ} (old : Agrees home c stage)
    (at' : c.locals θ = l) (self : l'.self = l.self) (role : l.pc.role = none) (role' : l'.pc.role = none)
    (running : ∀ k, l'.pc.runner = some k → home k = θ ∧ c.shared.sleeping k = none) (plain : l'.pc.Plain) :
    Agrees home (c.set θ {c.shared with pending := p} l') stage := by
  subst at'
  refine ⟨fun v => ?_,⟨old.heaps.indexed,old.heaps.member⟩,fun φ => ?_,old.sleepers,
    ⟨old.notices.queued,old.notices.once⟩,old.sound⟩
  · obtain ⟨st,prom,inHeap,recorded⟩ := old.nodes v
    exact ⟨st,prom,inHeap,recorded⟩
  by_cases same : φ = θ
  · subst same
    rw [setSelf]
    refine standsPlain (self.trans (old.stands φ).self) running (fun v k tag => ?_) plain
    rw [role', ← role]
    exact (old.stands φ).roles v k tag
  · rw [setOther c _ l' same]
    obtain ⟨own,running,roles,popped,fired,won,sending⟩ := old.stands φ
    exact ⟨own,running,roles,popped,fired,won,sending⟩

theorem plainKept {c : State U K Θ} {self : Θ} {f f' : Option Int} {pc pc' : Pc U K} (old : Agrees home c stage)
    (at' : c.locals θ = ⟨self,f,pc⟩) (p : U → ℕ) (role : pc.role = none) (role' : pc'.role = none)
    (runner : pc'.runner = none ∨ pc'.runner = pc.runner) (plain : pc'.Plain) :
    ∃ stage', Agrees home (c.set θ {c.shared with pending := p} ⟨self,f',pc'⟩) stage' := by
  refine ⟨stage,agreesPlain old at' rfl role role' (fun k runs => ?_) plain⟩
  have stands := old.stands θ
  rw [at'] at stands
  rcases runner with none | same
  · cases none.symm.trans runs
  · exact stands.running k (same.symm.trans runs)

end Plain

section Sleepers
variable {U K Θ : Type*} [DecidableEq U] [DecidableEq K] {g : Shared U K Θ} {stage : U → Stage K Θ} {u : U}
variable {s s' : Stage K Θ} {k : K}

theorem sleepersPut (old : ∀ k v, g.sleeping k = some v ↔ (stage v).sleeps = some k) (stood : stage u = s)
    (awake : g.sleeping k = none) (was : s.sleeps = none) (now : s'.sleeps = some k) (j : K) (v : U) :
    Function.update g.sleeping k (some u) j = some v ↔ (Function.update stage u s' v).sleeps = some j := by
  subst stood
  have free : ∀ w, (stage w).sleeps ≠ some k := fun w asleep => by
    rw [(old k w).mpr asleep] at awake
    cases awake
  have none : ∀ i, g.sleeping i ≠ some u := fun i asleep => by
    rw [(old i u).mp asleep] at was
    cases was
  by_cases mine : j = k <;> by_cases same : v = u
  · simp [mine, same, now]
  · simp [mine, same, free v, Ne.symm same]
  · simp [mine, same, now, none j, Ne.symm mine]
  · simp [mine, same, old]

theorem sleepersTaken (old : ∀ k v, g.sleeping k = some v ↔ (stage v).sleeps = some k)
    (was : (stage u).sleeps = some k) (now : s'.sleeps = none) (j : K) (v : U) :
    Function.update g.sleeping k none j = some v ↔ (Function.update stage u s' v).sleeps = some j := by
  have asleep := (old k u).mpr was
  by_cases mine : j = k <;> by_cases same : v = u
  · simp [mine, same, now]
  · have : (stage v).sleeps ≠ some k := fun here =>
      same (Option.some.inj (((old k v).mpr here).symm.trans asleep))
    simp [mine, same, this]
  · have : g.sleeping j ≠ some u := fun here =>
      mine (Option.some.inj (((old j u).mp here).symm.trans was))
    simp [mine, same, now, this]
  · simp [mine, same, old]

end Sleepers

section Changes
variable {U K Θ : Type*} [DecidableEq U] {home : K → Θ}
variable {g g' : Shared U K Θ} {stage : U → Stage K Θ} {θ : Θ} {u : U} {s s' : Stage K Θ}

def Kept (g g' : Shared U K Θ) (v : U) : Prop :=
  g'.st v = g.st v ∧ g'.prom v = g.prom v ∧ g'.inHeap v = g.inHeap v ∧ g'.winners v = g.winners v ∧
    g'.resumes v = g.resumes v

theorem nodesChanged (old : ∀ v, Node g v (stage v)) (here : Node g' u s') (others : ∀ v, v ≠ u → Kept g g' v) (v : U) :
    Node g' v (Function.update stage u s' v) := by
  by_cases same : v = u
  · subst same
    rwa [Function.update_self]
  · obtain ⟨st,prom,inHeap,winners,resumes⟩ := others v same
    obtain ⟨st₀,prom₀,inHeap₀,recorded⟩ := old v
    rw [Function.update_of_ne same]
    exact ⟨st.trans st₀,prom.trans prom₀,inHeap.trans inHeap₀,by rwa [winners, resumes]⟩

theorem heapsKept (old : Heaps home g stage) (stood : stage u = s) (heap : g'.heap = g.heap) (idx : g'.idx = g.idx)
    (heaped : s'.heaped = s.heaped) (owner : s'.heaped = true → s'.owner = s.owner) :
    Heaps home g' (Function.update stage u s') := by
  subst stood
  refine ⟨fun θ k z here => ?_,fun θ v => ?_⟩
  · simp only [Shared.timers, heap, idx] at here ⊢
    exact old.indexed θ here
  · rw [heap, old.member θ v]
    by_cases same : v = u
    · subst same
      rw [Function.update_self, heaped]
      refine and_congr_right fun inside => ?_
      rw [owner (heaped.trans inside)]
    · rw [Function.update_of_ne same]

structure Elsewhere (home : K → Θ) (θ : Θ) (s s' : Stage K Θ) : Prop where
  runs : ∀ k tag, home k ≠ θ → (s'.runs = some (k,tag) ↔ s.runs = some (k,tag))
  parked : ∀ k token, home k ≠ θ → s = .parked k false token → ∃ token', s' = .parked k false token'
  expired : ∀ k, home k ≠ θ → s = .expired k → s' = .expired k
  won : ∀ k φ, φ ≠ θ → s.notice = some (k,.won φ) → s'.notice = some (k,.won φ)
  sending : ∀ k φ, φ ≠ θ → s.notice = some (k,.sending φ) → s'.notice = some (k,.sending φ)

theorem elsewhereMine {k : K} (thread : home k = θ) (was : s.owner = none ∨ s.owner = some k)
    (now : s'.owner = none ∨ s'.owner = some k)
    (notice : ∀ j token, s.notice = some (j,token) → token ≠ .queued → s'.notice = some (j,token)) :
    Elsewhere home θ s s' := by
  have own : ∀ {t : Stage K Θ} {j}, t.owner = none ∨ t.owner = some k → home j ≠ θ → t.owner ≠ some j := by
    intro t j either away mine
    rcases either with none | same
    · cases none.symm.trans mine
    · cases Option.some.inj (same.symm.trans mine)
      exact away thread
  refine ⟨fun j tag away => ?_,fun j token away here => ?_,fun j away here => ?_,fun j φ _ sent => ?_,
    fun j φ _ sent => ?_⟩
  · exact ⟨fun runs => absurd (runsOwner runs) (own now away),fun runs => absurd (runsOwner runs) (own was away)⟩
  · exact absurd (by rw [here]; rfl) (own was away)
  · exact absurd (by rw [here]; rfl) (own was away)
  · exact notice j _ sent nofun
  · exact notice j _ sent nofun

theorem elsewhereSignal (token' : Token Θ)
    (mine : ∀ k token, s.notice = some (k,token) → token = .won θ ∨ token = .sending θ) :
    Elsewhere home θ s (s.signal token') := by
  refine ⟨fun k tag _ => by rw [signalRuns],fun k token _ here => ?_,fun k _ here => ?_,fun k φ other sent => ?_,
    fun k φ other sent => ?_⟩
  · rw [here]
    exact ⟨_,rfl⟩
  · rw [here]
    rfl
  · rcases mine k _ sent with same | same <;> cases same
    exact absurd rfl other
  · rcases mine k _ sent with same | same <;> cases same
    exact absurd rfl other

theorem standsElsewhere {φ : Θ} {l : Local U K Θ} (old : Stands home g stage φ l) (other : φ ≠ θ)
    (elsewhere : Elsewhere home θ (stage u) s') (asleep : ∀ k, home k ≠ θ → g'.sleeping k = g.sleeping k) :
    Stands home g' (Function.update stage u s') φ l := by
  have away : ∀ {k}, home k = φ → home k ≠ θ := fun at' same => other (at'.symm.trans same)
  refine ⟨old.self,fun k runs => ?_,fun v k tag => ?_,fun v here => ?_,fun v here => ?_,fun b v here => ?_,
    fun b k here => ?_⟩
  · obtain ⟨at',awake⟩ := old.running k runs
    exact ⟨at',(asleep k (away at')).trans awake⟩
  · rw [old.roles v k tag]
    by_cases same : v = u
    · subst same
      rw [Function.update_self]
      exact and_congr_left fun at' => (elsewhere.runs k tag (away at')).symm
    · rw [Function.update_of_ne same]
  · obtain ⟨k,token,stands,at'⟩ := old.popped v here
    by_cases same : v = u
    · subst same
      rw [Function.update_self]
      obtain ⟨token',kept⟩ := elsewhere.parked k token (away at') stands
      exact ⟨k,token',kept,at'⟩
    · rw [Function.update_of_ne same]
      exact ⟨k,token,stands,at'⟩
  · obtain ⟨k,stands,at'⟩ := old.fired v here
    by_cases same : v = u
    · subst same
      rw [Function.update_self]
      exact ⟨k,elsewhere.expired k (away at') stands,at'⟩
    · rw [Function.update_of_ne same]
      exact ⟨k,stands,at'⟩
  · obtain ⟨k,sent⟩ := old.won b v here
    by_cases same : v = u
    · subst same
      rw [Function.update_self]
      exact ⟨k,elsewhere.won k φ other sent⟩
    · rw [Function.update_of_ne same]
      exact ⟨k,sent⟩
  · obtain ⟨v,sent⟩ := old.sending b k here
    refine ⟨v,?_⟩
    by_cases same : v = u
    · subst same
      rw [Function.update_self]
      exact elsewhere.sending k φ other sent
    · rwa [Function.update_of_ne same]

theorem rolesChanged {l : Local U K Θ} {pc' : Pc U K} (old : Stands home g stage θ l)
    (mine : ∀ v k tag, l.pc.role = some (v,k,tag) → v = u)
    (now : ∀ v k tag, pc'.role = some (v,k,tag) ↔ v = u ∧ s'.runs = some (k,tag) ∧ home k = θ) (v : U) (k : K)
    (tag : Tag) : pc'.role = some (v,k,tag) ↔ (Function.update stage u s' v).runs = some (k,tag) ∧ home k = θ := by
  rw [now]
  by_cases same : v = u
  · subst same
    rw [Function.update_self]
    exact and_iff_right rfl
  · rw [Function.update_of_ne same]
    exact ⟨fun here => absurd here.1 same,fun runs => absurd (mine v k tag ((old.roles v k tag).mpr runs)) same⟩

theorem noticesKept (old : Notices home g stage) (stood : stage u = s) (sync : g'.sync = g.sync)
    (kept : ∀ k, s.notice = some (k,.queued) → s'.notice = some (k,.queued)) :
    Notices home g' (Function.update stage u s') := by
  subst stood
  refine ⟨fun φ k queued => ?_,fun φ => ?_⟩
  · rw [sync] at queued
    obtain ⟨at',v,sent⟩ := old.queued φ k queued
    refine ⟨at',v,?_⟩
    by_cases same : v = u
    · subst same
      rw [Function.update_self]
      exact kept k sent
    · rwa [Function.update_of_ne same]
  · rw [sync]
    exact old.once φ

theorem sleepersKept (old : ∀ k v, g.sleeping k = some v ↔ (stage v).sleeps = some k) (stood : stage u = s)
    (kept : s'.sleeps = s.sleeps) (k : K) (v : U) :
    g.sleeping k = some v ↔ (Function.update stage u s' v).sleeps = some k := by
  subst stood
  rw [old]
  by_cases same : v = u
  · subst same
    rw [Function.update_self, kept]
  · rw [Function.update_of_ne same]

variable [DecidableEq Θ] {k : K}

theorem heapsPlaced {t : Timers U} {present : Bool} (old : Heaps home g stage) (stood : stage u = s)
    (thread : home k = θ) (was : s.owner = some k) (placed : TimerHeap.Placed (g.timers θ) t u present)
    (heap : g'.heap = Function.update g.heap θ t.heap) (idx : g'.idx = t.idx) (heaped : s'.heaped = present)
    (now : present = true → s'.owner = some k) : Heaps home g' (Function.update stage u s') := by
  subst stood
  have apart : ∀ {φ v}, φ ≠ θ → v ∈ g.heap φ → v ∉ g.heap θ ∧ v ≠ u := by
    intro φ v other inside
    obtain ⟨-,j,owner,at'⟩ := (old.member φ v).mp inside
    refine ⟨fun again => ?_,fun same => ?_⟩
    · obtain ⟨-,i,owner',at''⟩ := (old.member θ v).mp again
      cases Option.some.inj (owner.symm.trans owner')
      exact other (at'.symm.trans at'')
    · subst same
      cases Option.some.inj (owner.symm.trans was)
      exact other (at'.symm.trans thread)
  refine ⟨fun φ k z here => ?_,fun φ v => ?_⟩
  · simp only [Shared.timers, heap, idx] at here ⊢
    by_cases same : φ = θ
    · subst same
      rw [Function.update_self] at here
      exact placed.indexed here
    · rw [Function.update_of_ne same] at here
      obtain ⟨out,other⟩ := apart same (List.mem_of_getElem? here)
      exact (placed.elsewhere z out other).trans (old.indexed φ here)
  · rw [heap]
    by_cases same : φ = θ
    · subst same
      rw [Function.update_self, placed.member v]
      by_cases this : v = u
      · subst this
        rw [if_pos rfl, Function.update_self, heaped]
        exact ⟨fun inside => ⟨inside,k,now inside,thread⟩,And.left⟩
      · rw [if_neg this, Function.update_of_ne this]
        exact old.member φ v
    · rw [Function.update_of_ne same, old.member φ v]
      by_cases this : v = u
      · subst this
        rw [Function.update_self, heaped]
        constructor
        · rintro ⟨inside,j,owner,at'⟩
          cases Option.some.inj (owner.symm.trans was)
          exact absurd (at'.symm.trans thread) same
        · rintro ⟨inside,j,owner,at'⟩
          cases Option.some.inj (owner.symm.trans (now inside))
          exact absurd (at'.symm.trans thread) same
      · rw [Function.update_of_ne this]

omit [DecidableEq Θ] in
theorem storedNode {t : Timers U} {present : Bool} (placed : TimerHeap.Placed (g.timers θ) t u present) :
    t.inHeap u = present :=
  (congrFun placed.inHeap u).trans (Function.update_self ..)

theorem storedOther {t : Timers U} {present : Bool} {v : U} (placed : TimerHeap.Placed (g.timers θ) t u present)
    (other : v ≠ u) : Kept g (g.store θ t) v :=
  ⟨rfl,rfl,(congrFun placed.inHeap v).trans (Function.update_of_ne other ..),rfl,rfl⟩

theorem agreesChanged {c : State U K Θ} {l' : Local U K Θ} (old : Agrees home c stage) (stood : stage u = s)
    (here : Node g' u s') (others : ∀ v, v ≠ u → Kept c.shared g' v)
    (heaps : Heaps home g' (Function.update stage u s')) (elsewhere : Elsewhere home θ s s')
    (asleep : ∀ k, home k ≠ θ → g'.sleeping k = c.shared.sleeping k)
    (mine : Stands home g' (Function.update stage u s') θ l')
    (sleepers : ∀ k v, g'.sleeping k = some v ↔ (Function.update stage u s' v).sleeps = some k)
    (notices : Notices home g' (Function.update stage u s'))
    (sound : g'.nullRead = false ∧ g'.stray = false ∧ g'.fatal = false) :
    Agrees home (c.set θ g' l') (Function.update stage u s') := by
  subst stood
  refine ⟨nodesChanged old.nodes here others,heaps,fun φ => ?_,sleepers,notices,sound⟩
  by_cases same : φ = θ
  · subst same
    rwa [setShared, setSelf]
  · rw [setShared, setOther c g' l' same]
    exact standsElsewhere (old.stands φ) same elsewhere asleep

theorem noticesPush (old : Notices home g stage)
    (sync : g'.sync = Function.update g.sync (home k) (k :: g.sync (home k)))
    (fresh : k ∉ g.sync (home k)) (was : ∀ j, (stage u).notice ≠ some (j,.queued))
    (now : s'.notice = some (k,.queued)) : Notices home g' (Function.update stage u s') := by
  have kept : ∀ φ j, j ∈ g.sync φ → home j = φ ∧ ∃ v, (Function.update stage u s' v).notice = some (j,.queued) := by
    intro φ j queued
    obtain ⟨at',v,sent⟩ := old.queued φ j queued
    refine ⟨at',v,?_⟩
    rw [Function.update_of_ne]
    · exact sent
    · intro same
      subst same
      exact was j sent
  refine ⟨fun φ j queued => ?_,fun φ => ?_⟩
  all_goals by_cases mine : φ = home k
  · subst mine
    rw [sync, Function.update_self, List.mem_cons] at queued
    rcases queued with rfl | queued
    · exact ⟨rfl,u,by rwa [Function.update_self]⟩
    · exact kept _ j queued
  · rw [sync, Function.update_of_ne mine] at queued
    exact kept φ j queued
  · subst mine
    rw [sync, Function.update_self]
    exact List.nodup_cons.mpr ⟨fresh,old.once _⟩
  · rw [sync, Function.update_of_ne mine]
    exact old.once φ

theorem noticesPop {rest : List K} (old : Notices home g stage) (next : g.sync θ = k :: rest)
    (sync : g'.sync = Function.update g.sync θ rest) (was : (stage u).notice = some (k,.queued)) :
    Notices home g' (Function.update stage u s') := by
  have once := old.once θ
  rw [next] at once
  obtain ⟨fresh,once⟩ := List.nodup_cons.mp once
  have kept : ∀ φ j, j ∈ g.sync φ → j ≠ k →
      home j = φ ∧ ∃ v, (Function.update stage u s' v).notice = some (j,.queued) := by
    intro φ j queued other
    obtain ⟨at',v,sent⟩ := old.queued φ j queued
    refine ⟨at',v,?_⟩
    rw [Function.update_of_ne]
    · exact sent
    · intro same
      subst same
      exact other (Prod.mk.inj (Option.some.inj (sent.symm.trans was))).1
  have at' : home k = θ := (old.queued θ k (by simp [next])).1
  refine ⟨fun φ j queued => ?_,fun φ => ?_⟩
  all_goals by_cases mine : φ = θ
  · subst mine
    rw [sync, Function.update_self] at queued
    exact kept φ j (by simp [next, queued]) fun same => fresh (same ▸ queued)
  · rw [sync, Function.update_of_ne mine] at queued
    refine kept φ j queued fun same => mine ?_
    rw [← (old.queued φ j queued).1, same, at']
  · subst mine
    rwa [sync, Function.update_self]
  · rw [sync, Function.update_of_ne mine]
    exact old.once φ

end Changes

end Uco.SleepChange
