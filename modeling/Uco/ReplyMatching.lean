import Uco.Interleaving
import Uco.RespRoundTrip

/-! Commands on pooled Redis connections. A connection carries one command at a time;
what is on its way to the server and back is part of the state, and every step of the
client, of the network and of the server may come between any two others. -/
namespace Uco.ReplyMatching
open Resp RespRoundTrip Interleaving

def kBadArgument : Int := -200
def kTimeout : Int := -201

structure Errno where
  number : Nat
  known : 0 < number ∧ number ≤ 133

def EINTR : Nat := 4
def EAGAIN : Nat := 11

structure Connection where
  fd : Int := -1
  broken : Bool := false
  rbuf : Bytes := []

inductive Call where
  | none
  | sending (index : Nat) (args : List Bytes) (off : Nat)
  | reading (index : Nat) (args : List Bytes)

structure Returned where
  index : Nat
  args : List Bytes
  reply : Reply

structure Link where
  conn : Connection := {}
  call : Call := .none
  outbound : Bytes := []
  inbox : Bytes := []
  inbound : Bytes := []
  commands : List (List Bytes) := []
  answers : List (List Bytes × Reply) := []
  returned : List Returned := []

def badArgument : Reply :=
  { retCode := kBadArgument, errMsg := bytes "uredis: invalid connection or empty args" }

section Steps
variable (strerror : Int → Bytes)

def fillError (r : Int) : Reply :=
  if r = -ETIME then { retCode := kTimeout, errMsg := bytes "uredis: operation timeout" }
  else { retCode := r, errMsg := bytes "uredis: " ++ strerror (-r) }

def Link.returns (l : Link) (index : Nat) (args : List Bytes) (reply : Reply) : Link :=
  { l with call := .none, returned := l.returned ++ [⟨index,args,reply⟩] }

def Link.fails (l : Link) (index : Nat) (args : List Bytes) (r : Int) : Link :=
  { l.returns index args (fillError strerror r) with conn := { l.conn with broken := true } }

/- The steps of ucommand, send_all and read_reply. A failed send may have sent a part,
and a failed receive may have lost one. -/
inductive ClientStep : Link → Link → Prop where
  | refuses {l} (args : List Bytes) (ready : l.call = .none)
      (bad : l.conn.fd < 0 ∨ l.conn.broken = true ∨ args = []) :
      ClientStep l (l.returns l.commands.length args badArgument)
  | begins {l} (args : List Bytes) (ready : l.call = .none) (opened : 0 ≤ l.conn.fd)
      (healthy : l.conn.broken = false) (some : args ≠ []) (stored : (serialize args).length ≤ maxSize) :
      ClientStep l { l with
        call := .sending l.commands.length args 0
        commands := l.commands ++ [args] }
  | sends {l index args off} (n : Nat) (phase : l.call = .sending index args off) (some : 0 < n)
      (room : off + n ≤ (serialize args).length) :
      ClientStep l { l with
        call := .sending index args (off + n)
        outbound := l.outbound ++ ((serialize args).drop off).take n }
  | sendAgain {l index args off} (phase : l.call = .sending index args off) (left : off < (serialize args).length) :
      ClientStep l l
  | sendFails {l index args off} (n : Nat) (e : Errno) (phase : l.call = .sending index args off)
      (left : off < (serialize args).length) (fatal : e.number ≠ EAGAIN ∧ e.number ≠ EINTR) :
      ClientStep l ({ l with outbound := l.outbound ++ ((serialize args).drop off).take n }.fails strerror index args
        (-e.number))
  | sent {l index args} (phase : l.call = .sending index args (serialize args).length) :
      ClientStep l { l with call := .reading index args, conn := { l.conn with rbuf := [] } }
  | replies {l index args out rest} (phase : l.call = .reading index args)
      (parsed : attempt l.conn.rbuf = .reply out rest) :
      ClientStep l ({ l with conn := { l.conn with rbuf := rest } }.returns index args out)
  | garbled {l index args code} (phase : l.call = .reading index args) (parsed : attempt l.conn.rbuf = .failed code) :
      ClientStep l (l.fails strerror index args code)
  | receives {l index args chunk rest} (phase : l.call = .reading index args) (parsed : attempt l.conn.rbuf = .receive)
      (came : l.inbound = chunk ++ rest) (some : chunk ≠ []) (size : chunk.length ≤ 4096) :
      ClientStep l { l with conn := { l.conn with rbuf := l.conn.rbuf ++ chunk }, inbound := rest }
  | receiveFails {l index args} (n : Nat) (e : Errno) (phase : l.call = .reading index args)
      (parsed : attempt l.conn.rbuf = .receive) :
      ClientStep l ({ l with inbound := l.inbound.drop n }.fails strerror index args (-e.number))

inductive ServerStep : Link → Link → Prop where
  | arrives {l} (n : Nat) : ServerStep l { l with inbox := l.inbox ++ l.outbound.take n, outbound := l.outbound.drop n }
  | answers {l args rest c r} (complete : l.inbox = serialize args ++ rest) (encodes : Encodes c r)
      (stored : c.length ≤ maxSize) : ServerStep l { l with
        inbox := rest
        inbound := l.inbound ++ c
        answers := l.answers ++ [(args,r)] }

inductive Place where
  | absent | connecting | lent | idle | dead
  deriving DecidableEq, Repr

variable {Id : Type*} [DecidableEq Id]

structure Pool (Id : Type*) where
  closed : Bool
  idle : List Id
  place : Id → Place
  link : Id → Link

def Pool.put (p : Pool Id) (x : Id) (place : Place) : Pool Id :=
  { p with place := Function.update p.place x place }

def Pool.set (p : Pool Id) (x : Id) (l : Link) : Pool Id := { p with link := Function.update p.link x l }

def Pool.release (p : Pool Id) (x : Id) : Pool Id :=
  if (p.link x).conn.broken = false ∧ p.closed = false then { p.put x .idle with idle := p.idle ++ [x] }
  else p.put x .dead

inductive PoolStep : Pool Id → Pool Id → Prop where
  | connects {p} (x : Id) (fd : Int) (fresh : p.place x = .absent) :
      PoolStep p ((p.put x .connecting).set x { conn := { fd := fd } })
  | joins {p x} (connecting : p.place x = .connecting) (ready : (p.link x).call = .none) (isOpen : p.closed = false) :
      PoolStep p (p.put x .lent)
  | drops {p x} (connecting : p.place x = .connecting) (ready : (p.link x).call = .none) : PoolStep p (p.put x .dead)
  | acquires {p x rest} (isOpen : p.closed = false) (first : p.idle = x :: rest) :
      PoolStep p { p.put x .lent with idle := rest }
  | releases {p x} (lent : p.place x = .lent) (ready : (p.link x).call = .none) : PoolStep p (p.release x)
  | reaps {p x rest} (isOpen : p.closed = false) (first : p.idle = x :: rest) :
      PoolStep p { p.put x .dead with idle := rest }
  | closes {p} (isOpen : p.closed = false) : PoolStep p { p with
      closed := true
      idle := []
      place := fun x => if p.place x = .lent ∨ p.place x = .idle then .dead else p.place x }
  | client {p x l} (held : p.place x = .connecting ∨ p.place x = .lent) (step : ClientStep strerror (p.link x) l) :
      PoolStep p (p.set x l)
  | server {p x l} (step : ServerStep (p.link x) l) : PoolStep p (p.set x l)

def start (Id : Type*) : Pool Id := ⟨false,[],fun _ => .absent,fun _ => {}⟩

end Steps

section Links

def Succeeded (reply : Reply) : Prop := reply.retCode = 0 ∨ reply.retCode = kServerError

def TransportFailed (reply : Reply) : Prop := ¬ Succeeded reply ∧ reply.retCode ≠ kBadArgument

inductive Pending (l : Link) (index : Nat) (args : List Bytes) (off : Nat) (got : Bytes) : Prop where
  | unanswered (stream : l.inbox ++ l.outbound = (serialize args).take off) (quiet : l.inbound = []) (nothing : got = [])
      (known : l.commands = l.answers.map Prod.fst ++ [args]) (here : index = l.answers.length)
  | answered {earlier c r} (whole : off = (serialize args).length) (delivered : l.inbox = [] ∧ l.outbound = [])
      (encodes : Encodes c r) (stored : c.length ≤ maxSize) (stream : got ++ l.inbound = c)
      (history : l.answers = earlier ++ [(args,r)]) (known : l.commands = l.answers.map Prod.fst)
      (here : index = earlier.length)

def Calm (l : Link) : Prop :=
  match l.call with
  | .none => l.inbox = [] ∧ l.outbound = [] ∧ l.inbound = [] ∧ l.commands = l.answers.map Prod.fst
  | .sending index args off => off ≤ (serialize args).length ∧ (serialize args).length ≤ maxSize ∧ Pending l index args off []
  | .reading index args =>
    (serialize args).length ≤ maxSize ∧ Pending l index args (serialize args).length l.conn.rbuf

structure Sound (l : Link) : Prop where
  calm : l.conn.broken = false → Calm l
  poisoned : l.conn.broken = true → l.call = .none
  matched : ∀ ret ∈ l.returned, Succeeded ret.reply →
    l.commands[ret.index]? = some ret.args ∧ l.answers[ret.index]? = some (ret.args,ret.reply)
  failed : ∀ ret ∈ l.returned, TransportFailed ret.reply → l.conn.broken = true

theorem soundFresh (fd : Int) : Sound { conn := { fd := fd } } :=
  ⟨fun _ => ⟨rfl,rfl,rfl,rfl⟩,by rintro ⟨⟩,by simp,by simp⟩

theorem serializeInj {args args' : List Bytes} {rest rest' : Bytes} (same : serialize args ++ rest = serialize args' ++ rest')
    (stored : (serialize args ++ rest).length ≤ maxSize) : args = args' ∧ rest = rest' := by
  have one := encodeEncodes (.array (args.map .bulk))
  have two := encodeEncodes (.array (args'.map .bulk))
  rw [← serializeEncodes, reply, repliesBulk] at one two
  obtain ⟨o,first⟩ := parseEncoded one rest stored
  obtain ⟨o',second⟩ := parseEncoded two rest' (same ▸ stored)
  rw [same, second] at first
  simp only [Parsed.ok.injEq, Reply.mk.injEq, true_and, Cursor.mk.injEq] at first
  obtain ⟨items,size,-⟩ := first
  have args' : args' = args := List.map_injective_iff.mpr (fun a b h => by simpa using h) items
  subst args'
  exact ⟨rfl,List.append_cancel_left same⟩

theorem completeOnly {args args' : List Bytes} {rest outbound : Bytes} {off : Nat}
    (stored : (serialize args).length ≤ maxSize)
    (stream : serialize args' ++ rest ++ outbound = (serialize args).take off) :
    args' = args ∧ rest = [] ∧ outbound = [] ∧ (serialize args).length ≤ off := by
  have whole : serialize args' ++ (rest ++ outbound ++ (serialize args).drop off) = serialize args ++ [] := by
    rw [← List.append_assoc, ← List.append_assoc, stream, List.take_append_drop, List.append_nil]
  obtain ⟨rfl,left⟩ := serializeInj whole (by rw [whole]; simpa using stored)
  simp only [List.append_eq_nil_iff, List.drop_eq_nil_iff] at left
  exact ⟨rfl,left.1.1,left.1.2,left.2⟩

theorem pendingArrives {l : Link} {index off : Nat} {args : List Bytes} {got : Bytes} (n : Nat)
    (pending : Pending l index args off got) :
    Pending { l with inbox := l.inbox ++ l.outbound.take n, outbound := l.outbound.drop n } index args off got := by
  cases pending with
  | unanswered stream quiet nothing known here =>
    exact .unanswered (by simpa using stream) quiet nothing known here
  | answered whole delivered encodes stored stream history known here =>
    exact .answered whole (by simp [delivered]) encodes stored stream history known here

theorem pendingAnswers {l : Link} {index off : Nat} {args args' : List Bytes} {got rest c : Bytes} {r : Reply}
    (fits : (serialize args).length ≤ maxSize) (inside : off ≤ (serialize args).length)
    (complete : l.inbox = serialize args' ++ rest) (encodes : Encodes c r) (stored : c.length ≤ maxSize)
    (pending : Pending l index args off got) :
    Pending { l with inbox := rest, inbound := l.inbound ++ c, answers := l.answers ++ [(args',r)] } index args off got := by
  cases pending with
  | unanswered stream quiet nothing known here =>
    rw [complete] at stream
    obtain ⟨rfl,rfl,empty,all⟩ := completeOnly fits stream
    exact .answered (le_antisymm inside all) ⟨rfl,empty⟩ encodes stored (by simp [quiet, nothing]) rfl
      (by simp [known]) here
  | answered _ delivered =>
    rw [delivered.1] at complete
    simp [serialize] at complete

theorem answersGrow {l : Link} {ret : Returned} {more : List (List Bytes × Reply)}
    (known : l.commands[ret.index]? = some ret.args ∧ l.answers[ret.index]? = some (ret.args,ret.reply)) :
    l.commands[ret.index]? = some ret.args ∧ (l.answers ++ more)[ret.index]? = some (ret.args,ret.reply) :=
  ⟨known.1,by rw [List.getElem?_append_left (List.getElem?_eq_some_iff.mp known.2).1]; exact known.2⟩

theorem serverSound {l l' : Link} (step : ServerStep l l') (sound : Sound l) : Sound l' := by
  obtain ⟨calm,poisoned,matched,failed⟩ := sound
  cases step with
  | arrives n =>
    refine ⟨fun healthy => ?_,poisoned,matched,failed⟩
    have calm := calm healthy
    obtain ⟨conn,call,outbound,inbox,inbound,commands,answers,returned⟩ := l
    cases call with
    | none =>
      obtain ⟨rfl,rfl,quiet,known⟩ := calm
      exact ⟨by simp,by simp,quiet,known⟩
    | sending index args off => exact ⟨calm.1,calm.2.1,pendingArrives n calm.2.2⟩
    | reading index args => exact ⟨calm.1,pendingArrives n calm.2⟩
  | answers complete encodes stored =>
    refine ⟨fun healthy => ?_,poisoned,fun ret inside good => answersGrow (matched ret inside good),failed⟩
    have calm := calm healthy
    obtain ⟨conn,call,outbound,inbox,inbound,commands,answers,returned⟩ := l
    cases call with
    | none =>
      have empty : inbox = [] := calm.1
      simp [empty, serialize] at complete
    | sending index args off =>
      exact ⟨calm.1,calm.2.1,pendingAnswers calm.2.1 calm.1 complete encodes stored calm.2.2⟩
    | reading index args => exact ⟨calm.1,pendingAnswers calm.1 le_rfl complete encodes stored calm.2⟩

theorem commandsGrow {l : Link} {ret : Returned} {more : List (List Bytes)}
    (known : l.commands[ret.index]? = some ret.args ∧ l.answers[ret.index]? = some (ret.args,ret.reply)) :
    (l.commands ++ more)[ret.index]? = some ret.args ∧ l.answers[ret.index]? = some (ret.args,ret.reply) :=
  ⟨by rw [List.getElem?_append_left (List.getElem?_eq_some_iff.mp known.1).1]; exact known.1,known.2⟩

theorem attemptReply {rbuf rest : Bytes} {out : Reply} (parsed : attempt rbuf = .reply out rest) :
    ∃ cur, parse rbuf = .ok out cur ∧ rest = rbuf.drop cur.pos := by
  rw [attempt] at parsed
  cases result : parse rbuf with
  | ok r cur =>
    simp only [result, Attempt.reply.injEq] at parsed
    exact ⟨cur,by rw [parsed.1],parsed.2.symm⟩
  | more => simp [result] at parsed
  | error => simp [result] at parsed

theorem attemptFailed {rbuf : Bytes} {code : Int} (parsed : attempt rbuf = .failed code) : code = -EPROTO := by
  rw [attempt] at parsed
  cases result : parse rbuf with
  | ok r cur => simp [result] at parsed
  | more => simp [result] at parsed
  | error =>
    simp only [result, Attempt.failed.injEq] at parsed
    exact parsed.symm

theorem encodesSucceeded {c : Bytes} {r : Reply} (encodes : Encodes c r) : Succeeded r := by
  cases encodes with
  | error => exact .inr rfl
  | status | integer | bulk | nilBulk | nilArray | array => exact .inl rfl

theorem pendingReplies {l : Link} {index off : Nat} {args : List Bytes} {got rest : Bytes} {out : Reply}
    (pending : Pending l index args off got) (parsed : attempt got = .reply out rest) :
    (l.inbox = [] ∧ l.outbound = [] ∧ l.inbound = [] ∧ l.commands = l.answers.map Prod.fst) ∧
      Succeeded out ∧ l.commands[index]? = some args ∧ l.answers[index]? = some (args,out) := by
  obtain ⟨cur,done,rfl⟩ := attemptReply parsed
  cases pending with
  | unanswered _ _ nothing =>
    rw [nothing] at done
    have more : parse [] = .more := rfl
    rw [more] at done
    contradiction
  | @answered earlier c r whole delivered encodes stored stream history known here =>
    by_cases all : l.inbound = []
    · rw [all, List.append_nil] at stream
      obtain ⟨overflow,read⟩ := parseEncoded encodes [] (by simpa using stored)
      rw [List.append_nil, ← stream, done] at read
      obtain ⟨rfl,-⟩ := Parsed.ok.inj read
      have place : l.answers[index]? = some (args,out) := by simp [history, here]
      refine ⟨⟨delivered.1,delivered.2,all,known⟩,encodesSucceeded encodes,?_,place⟩
      rw [known, List.getElem?_map, place]
      rfl
    · have more := parseShort encodes stream all stored
      rw [more] at done
      contradiction

end Links

section Client
variable {strerror : Int → Bytes}

theorem failedCode {r : Int} (low : -133 ≤ r) (high : r < 0) : TransportFailed (fillError strerror r) := by
  rw [fillError]
  split
  · simp [TransportFailed, Succeeded, kTimeout, kServerError, kBadArgument]
  · simp only [TransportFailed, Succeeded, kServerError, kBadArgument]
    omega

theorem badArgumentRefused : ¬ Succeeded badArgument ∧ ¬ TransportFailed badArgument := by
  simp [TransportFailed, Succeeded, badArgument, kBadArgument, kServerError]

theorem failsSound {l l' : Link} {index : Nat} {args : List Bytes} {r : Int} (sound : Sound l) (low : -133 ≤ r) (high : r < 0)
    (same : l'.commands = l.commands ∧ l'.answers = l.answers ∧ l'.returned = l.returned) :
    Sound (l'.fails strerror index args r) := by
  have bad : TransportFailed (fillError strerror r) := failedCode low high
  refine ⟨by rintro ⟨⟩,fun _ => rfl,fun ret inside good => ?_,fun _ _ _ => rfl⟩
  obtain ⟨commands,answers,returned⟩ := same
  rcases List.mem_append.mp inside with old | new
  · rw [returned] at old
    have known := sound.matched ret old good
    rw [← commands, ← answers] at known
    exact known
  · rw [List.mem_singleton.mp new] at good
    exact absurd good bad.1

theorem callHealthy {l : Link} (sound : Sound l) (busy : l.call ≠ .none) : l.conn.broken = false := by
  by_contra broken
  exact busy (sound.poisoned (by simpa using broken))

theorem clientSound {l l' : Link} (step : ClientStep strerror l l') (sound : Sound l) : Sound l' := by
  cases step with
  | refuses args ready bad =>
    obtain ⟨calm,poisoned,matched,failed⟩ := sound
    refine ⟨fun healthy => ?_,fun _ => rfl,List.forall_mem_append.mpr ⟨matched,?_⟩,
      List.forall_mem_append.mpr ⟨failed,?_⟩⟩
    · have calm := calm healthy
      simp only [Calm, ready] at calm
      exact calm
    · exact List.forall_mem_singleton.mpr fun good => absurd good badArgumentRefused.1
    · exact List.forall_mem_singleton.mpr fun bad => absurd bad badArgumentRefused.2
  | begins args ready opened healthy some stored =>
    obtain ⟨calm,poisoned,matched,failed⟩ := sound
    have calm := calm healthy
    simp only [Calm, ready] at calm
    obtain ⟨inbox,outbound,inbound,known⟩ := calm
    refine ⟨fun _ => ?_,fun broken => ?_,fun ret inside good => commandsGrow (matched ret inside good),failed⟩
    · refine ⟨Nat.zero_le _,stored,.unanswered ?_ inbound rfl ?_ ?_⟩
      · simp [inbox, outbound]
      · simp [known]
      · simp [known]
    · rw [healthy] at broken
      contradiction
  | @sends index args off n phase some room =>
    refine ⟨fun healthy => ?_,fun broken => ?_,sound.matched,sound.failed⟩
    · have calm := sound.calm healthy
      simp only [Calm, phase] at calm ⊢
      refine ⟨room,calm.2.1,?_⟩
      cases calm.2.2 with
      | unanswered stream quiet nothing known here =>
        refine .unanswered ?_ quiet nothing known here
        simp only
        rw [← List.append_assoc, stream, List.take_add]
      | answered whole => omega
    · cases (callHealthy sound (by simp [phase])).symm.trans broken
  | sendAgain => exact sound
  | sendFails n e => exact failsSound sound (by have := e.known; omega) (by have := e.known; omega) ⟨rfl,rfl,rfl⟩
  | @sent index args phase =>
    refine ⟨fun healthy => ?_,fun broken => ?_,sound.matched,sound.failed⟩
    · have calm := sound.calm healthy
      simp only [Calm, phase] at calm ⊢
      refine ⟨calm.2.1,?_⟩
      cases calm.2.2 with
      | unanswered stream quiet nothing known here => exact .unanswered stream quiet rfl known here
      | answered whole delivered encodes stored stream history known here =>
        exact .answered whole delivered encodes stored stream history known here
    · cases (callHealthy sound (by simp [phase])).symm.trans broken
  | @replies index args out rest phase parsed =>
    have calm := sound.calm (callHealthy sound (by simp [phase]))
    simp only [Calm, phase] at calm
    obtain ⟨empty,good,known⟩ := pendingReplies calm.2 parsed
    refine ⟨fun _ => empty,fun _ => rfl,List.forall_mem_append.mpr ⟨sound.matched,?_⟩,
      List.forall_mem_append.mpr ⟨sound.failed,?_⟩⟩
    · exact List.forall_mem_singleton.mpr fun _ => known
    · exact List.forall_mem_singleton.mpr fun bad => absurd good bad.1
  | garbled phase parsed =>
    rw [attemptFailed parsed]
    exact failsSound sound (by decide) (by decide) ⟨rfl,rfl,rfl⟩
  | @receives index args chunk rest phase parsed came some size =>
    refine ⟨fun healthy => ?_,fun broken => ?_,sound.matched,sound.failed⟩
    · have calm := sound.calm healthy
      simp only [Calm, phase] at calm ⊢
      refine ⟨calm.1,?_⟩
      cases calm.2 with
      | unanswered stream quiet nothing known here =>
        rw [quiet] at came
        simp [some] at came
      | answered whole delivered encodes stored stream history known here =>
        refine .answered whole delivered encodes stored ?_ history known here
        rw [← stream, came, List.append_assoc]
    · cases (callHealthy sound (by simp [phase])).symm.trans broken
  | receiveFails n e =>
    exact failsSound sound (by have := e.known; omega) (by have := e.known; omega) ⟨rfl,rfl,rfl⟩

theorem clientBroken {l l' : Link} (step : ClientStep strerror l l') (sound : Sound l) (broken : l.conn.broken = true) :
    l'.conn.broken = true ∧ l'.commands = l.commands := by
  have idle := sound.poisoned broken
  cases step with
  | refuses => exact ⟨broken,rfl⟩
  | begins _ _ _ healthy =>
    rw [broken] at healthy
    contradiction
  | sends _ phase | sendFails _ _ phase | sent phase | replies phase | garbled phase | receives phase
  | receiveFails _ _ phase =>
    rw [idle] at phase
    contradiction
  | sendAgain => exact ⟨broken,rfl⟩

theorem serverBroken {l l' : Link} (step : ServerStep l l') :
    l'.conn.broken = l.conn.broken ∧ l'.commands = l.commands ∧ l'.call = l.call := by
  cases step <;> exact ⟨rfl,rfl,rfl⟩

end Client

section Pools
variable {strerror : Int → Bytes} {Id : Type*} [DecidableEq Id]

structure PoolSound (p : Pool Id) : Prop where
  links : ∀ x, Sound (p.link x)
  pooled : ∀ x ∈ p.idle, p.place x = .idle
  ready : ∀ x, p.place x = .idle → (p.link x).call = .none ∧ (p.link x).conn.broken = false
  unused : ∀ x, p.place x = .absent → (p.link x).conn.broken = false
  once : p.idle.Nodup

theorem putSound {p : Pool Id} {x : Id} {place : Place} (sound : PoolSound p) (free : x ∉ p.idle)
    (plain : place ≠ .idle ∧ place ≠ .absent) : PoolSound (p.put x place) := by
  refine ⟨sound.links,fun y inside => ?_,fun y idle => ?_,fun y absent => ?_,sound.once⟩
  · have other : y ≠ x := fun h => free (h ▸ inside)
    simpa [Pool.put, other] using sound.pooled y inside
  · by_cases same : y = x
    · simp [Pool.put, same, plain] at idle
    · exact sound.ready y (by simpa [Pool.put, same] using idle)
  · by_cases same : y = x
    · simp [Pool.put, same, plain] at absent
    · exact sound.unused y (by simpa [Pool.put, same] using absent)

theorem setSound {p : Pool Id} {x : Id} {l : Link} (sound : PoolSound p) (link : Sound l)
    (ready : p.place x = .idle → l.call = .none ∧ l.conn.broken = false)
    (unused : p.place x = .absent → l.conn.broken = false) : PoolSound (p.set x l) := by
  refine ⟨fun y => ?_,sound.pooled,fun y idle => ?_,fun y absent => ?_,sound.once⟩
  · by_cases same : y = x
    · simpa [Pool.set, same] using link
    · simpa [Pool.set, same] using sound.links y
  · by_cases same : y = x
    · subst same
      simpa [Pool.set] using ready idle
    · simpa [Pool.set, same] using sound.ready y idle
  · by_cases same : y = x
    · subst same
      simpa [Pool.set] using unused absent
    · simpa [Pool.set, same] using sound.unused y absent

theorem takeSound {p : Pool Id} {x : Id} {rest : List Id} {place : Place} (sound : PoolSound p) (first : p.idle = x :: rest)
    (plain : place ≠ .idle ∧ place ≠ .absent) : PoolSound { p.put x place with idle := rest } := by
  have once := sound.once
  rw [first, List.nodup_cons] at once
  have shrunk : PoolSound { p with idle := rest } :=
    ⟨sound.links,fun y inside => sound.pooled y (first ▸ List.mem_cons_of_mem x inside),sound.ready,sound.unused,once.2⟩
  exact putSound shrunk once.1 plain

omit [DecidableEq Id] in
theorem notPooled {p : Pool Id} {x : Id} {place : Place} (sound : PoolSound p) (here : p.place x = place)
    (other : place ≠ .idle) : x ∉ p.idle := by
  intro inside
  rw [sound.pooled x inside] at here
  exact other here.symm

theorem releaseSound {p : Pool Id} {x : Id} (sound : PoolSound p) (lent : p.place x = .lent)
    (ready : (p.link x).call = .none) : PoolSound (p.release x) := by
  have free := notPooled sound lent (by decide)
  rw [Pool.release]
  split
  · rename_i healthy
    refine ⟨sound.links,fun y inside => ?_,fun y idle => ?_,fun y absent => ?_,?_⟩
    · by_cases same : y = x
      · simp [Pool.put, same]
      · simp only [List.mem_append, List.mem_singleton, same, or_false] at inside
        simpa [Pool.put, same] using sound.pooled y inside
    · by_cases same : y = x
      · subst same
        exact ⟨ready,healthy.1⟩
      · exact sound.ready y (by simpa [Pool.put, same] using idle)
    · by_cases same : y = x
      · simp [Pool.put, same] at absent
      · exact sound.unused y (by simpa [Pool.put, same] using absent)
    · simpa using List.nodup_append.mpr ⟨sound.once,by simp,by simpa using fun y inside => ne_of_mem_of_not_mem inside free⟩
  · exact putSound sound free (by decide)

theorem poolSound {p q : Pool Id} (step : PoolStep strerror p q) (sound : PoolSound p) : PoolSound q := by
  cases step with
  | connects x fd fresh =>
    have placed : PoolSound (p.put x .connecting) := putSound sound (notPooled sound fresh (by decide)) (by decide)
    exact setSound placed (soundFresh fd) (fun _ => ⟨rfl,rfl⟩) fun _ => rfl
  | joins connecting => exact putSound sound (notPooled sound connecting (by decide)) (by decide)
  | drops connecting => exact putSound sound (notPooled sound connecting (by decide)) (by decide)
  | acquires _ first => exact takeSound sound first (by decide)
  | releases lent ready => exact releaseSound sound lent ready
  | reaps _ first => exact takeSound sound first (by decide)
  | closes =>
    refine ⟨sound.links,by simp,fun y idle => ?_,fun y absent => ?_,List.nodup_nil⟩
    · simp only at idle
      split at idle
      · contradiction
      · rename_i kept
        exact absurd (.inr idle) kept
    · simp only at absent
      split at absent
      · contradiction
      · exact sound.unused y absent
  | @client x l held step =>
    have active : p.place x ≠ .idle ∧ p.place x ≠ .absent := by rcases held with h | h <;> simp [h]
    exact setSound sound (clientSound step (sound.links x)) (fun idle => absurd idle active.1)
      fun absent => absurd absent active.2
  | @server x l step =>
    obtain ⟨broken,-,call⟩ := serverBroken step
    exact setSound sound (serverSound step (sound.links x))
      (fun idle => by rw [broken, call]; exact sound.ready x idle) fun absent => by rw [broken]; exact sound.unused x absent

omit [DecidableEq Id] in
theorem startSound : PoolSound (start Id) :=
  ⟨fun _ => soundFresh (-1),by simp [start],by simp [start],fun _ _ => rfl,by simp [start]⟩

theorem poolReachable {p : Pool Id} (run : Reachable (PoolStep strerror) (start Id) p) : PoolSound p :=
  reachableInvariant PoolSound startSound (fun _ _ sound step => poolSound step sound) run

theorem releaseLink (p : Pool Id) (x : Id) : (p.release x).link = p.link := by
  rw [Pool.release]
  split <;> rfl

theorem brokenStays {p q : Pool Id} (step : PoolStep strerror p q) (sound : PoolSound p) {x : Id}
    (broken : (p.link x).conn.broken = true) :
    (q.link x).conn.broken = true ∧ (q.link x).commands = (p.link x).commands := by
  cases step with
  | connects y fd fresh =>
    have other : x ≠ y := by
      rintro rfl
      rw [sound.unused x fresh] at broken
      contradiction
    simpa [Pool.set, Pool.put, other] using broken
  | joins | drops | acquires | reaps | closes => exact ⟨broken,rfl⟩
  | releases => simpa [releaseLink] using broken
  | @client y l held step =>
    by_cases same : x = y
    · subst same
      simpa [Pool.set] using clientBroken step (sound.links x) broken
    · simpa [Pool.set, same] using broken
  | @server y l step =>
    by_cases same : x = y
    · subst same
      obtain ⟨kept,commands,-⟩ := serverBroken step
      simpa [Pool.set, kept, commands] using broken
    · simpa [Pool.set, same] using broken

/- A reply that came is the server's to that very command; after a transport failure
the connection carries no other command and is never idle again. -/
theorem repliesMatch {p : Pool Id} (run : Reachable (PoolStep strerror) (start Id) p) (x : Id) :
    (∀ ret ∈ (p.link x).returned, Succeeded ret.reply →
      (p.link x).commands[ret.index]? = some ret.args ∧ (p.link x).answers[ret.index]? = some (ret.args,ret.reply)) ∧
    ((∃ ret ∈ (p.link x).returned, TransportFailed ret.reply) → ∀ q, Reachable (PoolStep strerror) p q →
      (q.link x).commands = (p.link x).commands ∧ x ∉ q.idle) := by
  have sound := poolReachable run
  refine ⟨(sound.links x).matched,?_⟩
  rintro ⟨ret,inside,bad⟩ q later
  have broken := (sound.links x).failed ret inside bad
  have kept : (q.link x).conn.broken = true ∧ (q.link x).commands = (p.link x).commands := by
    induction later with
    | refl => exact ⟨broken,rfl⟩
    | tail before step ih =>
      have next := brokenStays step (poolReachable (run.trans before)) ih.1
      exact ⟨next.1,next.2.trans ih.2⟩
  refine ⟨kept.2,fun pooled => ?_⟩
  have whole := poolReachable (run.trans later)
  rw [(whole.ready x (whole.pooled x pooled)).2] at kept
  exact absurd kept.1 (by decide)

theorem linkReachable {p : Pool Id} {x : Id} (lent : p.place x = .lent) {l : Link}
    (run : Relation.ReflTransGen (fun l l' => ClientStep strerror l l' ∨ ServerStep l l') (p.link x) l) :
    Reachable (PoolStep strerror) p (p.set x l) := by
  induction run with
  | refl => simpa [Pool.set] using Relation.ReflTransGen.refl
  | @tail l l' _ step ih =>
    have here : (p.set x l).link x = l := by simp [Pool.set]
    have next : PoolStep strerror (p.set x l) ((p.set x l).set x l') := by
      rcases step with client | server
      · exact .client (.inr lent) (here.symm ▸ client)
      · exact .server (here.symm ▸ server)
    rw [Pool.set, Pool.set, Function.update_idem] at next
    exact ih.tail next

def pingLink (call : Call) (rbuf outbound inbox inbound : Bytes) (answers : List (List Bytes × Reply))
    (returned : List Returned) : Link :=
  ⟨{ fd := 3, rbuf := rbuf },call,outbound,inbox,inbound,[[bytes "PING"]],answers,returned⟩

def pong : Reply := { type := .status, str := bytes "PONG" }

theorem pingRun : Relation.ReflTransGen (fun l l' => ClientStep (fun _ => []) l l' ∨ ServerStep l l') { conn := { fd := 3 } }
    (pingLink .none [] [] [] [] [([bytes "PING"],pong)] [⟨0,[bytes "PING"],pong⟩]) := by
  have encodes : Encodes (bytes "+PONG" ++ crlf) pong := .status (by decide : RespGrammar.OneLine (bytes "PONG"))
  have begins : ClientStep (fun _ => []) { conn := { fd := 3 } } (pingLink (.sending 0 [bytes "PING"] 0) [] [] [] [] [] []) :=
    .begins [bytes "PING"] rfl (by decide) rfl (by decide) (by decide)
  have sends : ClientStep (fun _ => []) (pingLink (.sending 0 [bytes "PING"] 0) [] [] [] [] [] [])
      (pingLink (.sending 0 [bytes "PING"] 5) [] ((serialize [bytes "PING"]).take 5) [] [] [] []) :=
    .sends 5 rfl (by decide) (by decide)
  have sendsRest : ClientStep (fun _ => [])
      (pingLink (.sending 0 [bytes "PING"] 5) [] ((serialize [bytes "PING"]).take 5) [] [] [] [])
      (pingLink (.sending 0 [bytes "PING"] 14) [] (serialize [bytes "PING"]) [] [] [] []) :=
    .sends 9 rfl (by decide) (by decide)
  have sent : ClientStep (fun _ => []) (pingLink (.sending 0 [bytes "PING"] 14) [] (serialize [bytes "PING"]) [] [] [] [])
      (pingLink (.reading 0 [bytes "PING"]) [] (serialize [bytes "PING"]) [] [] [] []) := .sent rfl
  have arrives : ServerStep (pingLink (.reading 0 [bytes "PING"]) [] (serialize [bytes "PING"]) [] [] [] [])
      (pingLink (.reading 0 [bytes "PING"]) [] [] (serialize [bytes "PING"]) [] [] []) := .arrives 14
  have answers : ServerStep (pingLink (.reading 0 [bytes "PING"]) [] [] (serialize [bytes "PING"]) [] [] [])
      (pingLink (.reading 0 [bytes "PING"]) [] [] [] (bytes "+PONG" ++ crlf) [([bytes "PING"],pong)] []) :=
    .answers (List.append_nil _).symm encodes (by decide)
  have receives : ClientStep (fun _ => [])
      (pingLink (.reading 0 [bytes "PING"]) [] [] [] (bytes "+PONG" ++ crlf) [([bytes "PING"],pong)] [])
      (pingLink (.reading 0 [bytes "PING"]) (bytes "+PO") [] [] (bytes "NG" ++ crlf) [([bytes "PING"],pong)] []) :=
    .receives rfl (by rfl) (by rfl) (by decide) (by decide)
  have receivesRest : ClientStep (fun _ => [])
      (pingLink (.reading 0 [bytes "PING"]) (bytes "+PO") [] [] (bytes "NG" ++ crlf) [([bytes "PING"],pong)] [])
      (pingLink (.reading 0 [bytes "PING"]) (bytes "+PO" ++ (bytes "NG" ++ crlf)) [] [] [] [([bytes "PING"],pong)] []) :=
    .receives rfl (by rfl) (List.append_nil _).symm (by decide) (by decide)
  have replies : ClientStep (fun _ => [])
      (pingLink (.reading 0 [bytes "PING"]) (bytes "+PO" ++ (bytes "NG" ++ crlf)) [] [] [] [([bytes "PING"],pong)] [])
      (pingLink .none [] [] [] [] [([bytes "PING"],pong)] [⟨0,[bytes "PING"],pong⟩]) := .replies rfl (by rfl)
  exact .tail (.tail (.tail (.tail (.tail (.tail (.tail (.tail (.tail .refl (.inl begins)) (.inl sends)) (.inl sendsRest))
    (.inl sent)) (.inr arrives)) (.inr answers)) (.inl receives)) (.inl receivesRest)) (.inl replies)

theorem pingAnswered : ∃ p : Pool Unit, (p.link ()).returned.map Returned.reply = [pong] ∧
    ∀ ret ∈ (p.link ()).returned, Succeeded ret.reply → (p.link ()).answers[ret.index]? = some (ret.args,ret.reply) := by
  have lent : Reachable (PoolStep fun _ => []) (start Unit)
      ((((start Unit).put () .connecting).set () { conn := { fd := 3 } }).put () .lent) :=
    .tail (.tail .refl (.connects () 3 rfl)) (.joins rfl rfl rfl)
  have done := lent.trans (linkReachable (x := ()) rfl pingRun)
  exact ⟨_,by rfl,fun ret inside good => ((repliesMatch done ()).1 ret inside good).2⟩

end Pools

end Uco.ReplyMatching
