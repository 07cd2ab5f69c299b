/-
  HahaWeb.Http.SessionTimers — `HttpServer::afterServlet`: the timers of the sessions.

  A session's timer has the hash of its id for a descriptor: 32 bits, put into an `int`. An
  id that hashes to 2^31 or more gives a negative descriptor, which `push` asserts against;
  two ids of one hash share a timer. Proved: each session has a timer of its own exactly when
  neither happens (`own_timers_iff`).

  The callback of a timer has the variable `session` of its call by reference, and is kept
  here as that reference: the call has ended when the timer fires, and what the callback then
  finds there is not defined. So a timer of its own is one whose callback refers to the
  variable of the session's own call, and says nothing of what it does. A task runs with the
  timer it was given: that `addTimer` captures it by reference is not modelled, nor is the
  lock of a session.
-/

import HahaWeb.Base.EncodeUtil
import HahaWeb.Base.TimeStamp
import HahaWeb.Http.HttpServer
import HahaWeb.Net.TimerHeap

namespace HahaWeb

namespace HttpServer

open EncodeUtil (murmurHash2)

/-! ## What `afterServlet` asks for -/

/-- What a timer calls: with a connection, or with a reference to the local `session` of a call
    of `afterServlet`. -/
inductive TimeoutCallBack where
  | handleConnectionClose (conn : Nat)
  | handleSessionTimeout (call : Nat)
  deriving DecidableEq, Repr

/-- What the main loop is asked to do with its timers, the descriptor an `int`; the callback
    of an `adjustTimer` is null and not read. -/
inductive TimerTask where
  | addTimer (fd : Int) (expire : Nat) (cb : TimeoutCallBack)
  | adjustTimer (fd : Int) (expire : Nat)
  deriving DecidableEq, Repr

/-- `EncodeUtil::murmurHash2(session->getId())`, as the `int` of a `Timer`. -/
def sessionKey (id : Bytes) : Int := toInt (murmurHash2 id).toNat

/-- `TimeStamp::nowSecond` -/
def nowSecond (now : Nat) (sec : Int) : Nat := ((now + toInt (sec * 1000000)) % 0x10000000000000000).toNat

/-- It is the one of the time stamps. -/
theorem nowSecond_eq (now : TimeStamp) (sec : Int32) :
    nowSecond now.microsecond.toNat sec.toInt = (now.nowSecond sec).microsecond.toNat := by
  have hspan := TimeStamp.toNat_ofSecond sec
  rw [nowSecond, toInt, TimeStamp.nowSecond, TimeStamp.toNat_add]
  generalize (sec.toInt * 1000000).bmod (2 ^ 32) = r at *
  omega

/-- The number of the call is that of its local variable. -/
def sessionTimer (call now : Nat) (session : HttpSession) : Option TimerTask :=
  match session.status with
  | .new => some (.addTimer (sessionKey session.id) (nowSecond now session.interval) (.handleSessionTimeout call))
  | .accessed => some (.adjustTimer (sessionKey session.id) (nowSecond now session.interval))
  | .destroy => none

/-- What `afterServlet` asks the main loop for. -/
def afterServletTimer {D : Type} (call now : Nat) (req : HttpRequest D) : Option TimerTask :=
  req.session.bind (sessionTimer call now)

/-- The second request of a session adjusts the timer that the first one added. -/
theorem afterServletTimer_next {D : Type} {req : HttpRequest D} {session : HttpSession}
    (hs : req.session = some session) (hnew : session.status = .new) (call call' now now' : Nat) :
    afterServletTimer call now req =
        some (.addTimer (sessionKey session.id) (nowSecond now session.interval) (.handleSessionTimeout call)) ∧
      afterServletTimer call' now' (afterServlet req) =
        some (.adjustTimer (sessionKey session.id) (nowSecond now' session.interval)) := by
  unfold afterServletTimer
  constructor
  · rw [hs, Option.bind_some, sessionTimer, hnew]
  · simp only [afterServlet, hs, hnew, if_true]
    rfl

/-! ## The tasks in the main loop -/

/-- A descriptor that passes `assert(timer.fd >= 0)`. -/
def descriptor (fd : Int) : Option Fd :=
  if hf : 0 ≤ fd ∧ fd.toNat < 2 ^ 31 then some ⟨fd.toNat, hf.2⟩ else none

/-- A negative descriptor is in no table. -/
def TimerTask.run (h : TimerHeap TimeoutCallBack) : TimerTask → Except Fault (TimerHeap TimeoutCallBack)
  | .addTimer fd expire cb => (descriptor fd).elim (.error .assertion) fun fd => h.push ⟨fd, expire, cb⟩
  | .adjustTimer fd expire => (descriptor fd).elim (.ok h) fun fd => h.adjust fd expire

def runTasks (h : TimerHeap TimeoutCallBack) (tasks : List TimerTask) : Except Fault (TimerHeap TimeoutCallBack) :=
  tasks.foldlM TimerTask.run h

/-- The descriptor of a session's timer. -/
def sessionFd (id : Bytes) : Option Fd := descriptor (sessionKey id)

/-- The timer at a session's key. -/
def timerOf (h : TimerHeap TimeoutCallBack) (id : Bytes) : Option (Timer TimeoutCallBack) :=
  (sessionFd id).bind h.timers

theorem descriptor_eq_some {n : Int} {fd : Fd} : descriptor n = some fd ↔ n = (fd : Nat) := by
  have hfd := fd.isLt
  unfold descriptor
  by_cases hn : 0 ≤ n ∧ n.toNat < 2 ^ 31
  · rw [dif_pos hn, Option.some.injEq, Fin.ext_iff, Fin.val_mk]
    omega
  · rw [dif_neg hn]
    simp only [reduceCtorEq, false_iff]
    omega

/-- The hash of an id is its key when it is below 2^31; else the key is negative. -/
theorem sessionFd_eq_some {id : Bytes} {fd : Fd} : sessionFd id = some fd ↔ (murmurHash2 id).toNat = fd := by
  have hlt : (murmurHash2 id).toNat < 2 ^ 32 := (murmurHash2 id).toNat_lt
  have hfd := fd.isLt
  unfold sessionFd sessionKey
  rw [descriptor_eq_some]
  by_cases hlow : (murmurHash2 id).toNat < 2 ^ 31
  · rw [toInt_of_lt hlow]
    omega
  · have hneg : toInt (murmurHash2 id).toNat < 0 := by
      rw [toInt, Int.bmod_def]
      split <;> omega
    omega

/-- A call of `afterServlet`, with its time and the session. -/
structure Call where
  call : Nat
  now : Nat
  session : HttpSession

/-- The calls for requests with their times, one after the other. -/
def calls (rs : List (Nat × HttpSession)) : List Call := rs.zipIdx.map fun r => ⟨r.2, r.1.1, r.1.2⟩

/-- What each asks for. -/
def tasks (cs : List Call) : List TimerTask := cs.filterMap fun c => sessionTimer c.call c.now c.session

/-- Every task runs, each session then has a timer of its own, and an `adjustTimer` for one
    leaves those of the others. -/
def OwnTimers (h : TimerHeap TimeoutCallBack) (rs : List (Nat × HttpSession)) : Prop :=
  ∃ h', runTasks h (tasks (calls rs)) = .ok h' ∧
    (∀ c ∈ calls rs, ∃ t, timerOf h' c.session.id = some t ∧ t.expire = nowSecond c.now c.session.interval ∧
      t.cb = .handleSessionTimeout c.call) ∧
    ∀ c ∈ calls rs, ∀ c' ∈ calls rs, c'.session.id ≠ c.session.id → ∀ expire,
      ∃ h'', (TimerTask.adjustTimer (sessionKey c.session.id) expire).run h' = .ok h'' ∧
        timerOf h'' c'.session.id = timerOf h' c'.session.id

variable {h : TimerHeap TimeoutCallBack} {rs : List (Nat × HttpSession)}

theorem calls_sessions (rs : List (Nat × HttpSession)) {α : Type} (f : HttpSession → α) :
    (calls rs).map (fun c => f c.session) = rs.map fun r => f r.2 := by
  calc (calls rs).map (fun c => f c.session) = (rs.zipIdx.map Prod.fst).map fun r => f r.2 := by
        rw [calls, List.map_map, List.map_map]
        rfl
    _ = rs.map fun r => f r.2 := by rw [List.zipIdx_map_fst]

/-- Each call has a variable of its own. -/
theorem calls_nodup (rs : List (Nat × HttpSession)) : ((calls rs).map (·.call)).Nodup := by
  have hsnd : (calls rs).map (·.call) = List.range' 0 rs.length := by
    rw [calls, List.map_map]
    exact List.zipIdx_map_snd 0 rs
  rw [hsnd]
  exact List.nodup_range'

/-- A session that was not accessed adds its timer. -/
theorem addTimer_adds (hx : h.Indexed) {c : Call} {fd : Fd} (hnew : c.session.status = .new)
    (hfd : sessionFd c.session.id = some fd) :
    ∃ task h', sessionTimer c.call c.now c.session = some task ∧ task.run h = .ok h' ∧ h'.Indexed ∧
      h'.timers = Function.update h.timers fd
        (some ⟨fd, nowSecond c.now c.session.interval, .handleSessionTimeout c.call⟩) := by
  obtain ⟨h', he, hb⟩ := TimerHeap.push_becomes hx
    ⟨fd, nowSecond c.now c.session.interval, .handleSessionTimeout c.call⟩
  refine ⟨_, h', by rw [sessionTimer, hnew], ?_, hb.indexed, hb.timers⟩
  rw [TimerTask.run]
  rw [sessionFd] at hfd
  rw [hfd]
  exact he

/-- Sessions of distinct keys, each added: every one has its timer, and the timers of other
    keys are as they were. -/
theorem runTasks_adds : ∀ {cs : List Call} {h : TimerHeap TimeoutCallBack}, h.Indexed →
    (∀ c ∈ cs, c.session.status = .new) → (∀ c ∈ cs, ∃ fd, sessionFd c.session.id = some fd) →
    (cs.map fun c => sessionFd c.session.id).Nodup →
    ∃ h', runTasks h (tasks cs) = .ok h' ∧ h'.Indexed ∧
      (∀ c ∈ cs, ∀ fd, sessionFd c.session.id = some fd →
        h'.timers fd = some ⟨fd, nowSecond c.now c.session.interval, .handleSessionTimeout c.call⟩) ∧
      ∀ fd, some fd ∉ cs.map (fun c => sessionFd c.session.id) → h'.timers fd = h.timers fd := by
  intro cs
  induction cs with
  | nil =>
    intro h hx _ _ _
    exact ⟨h, rfl, hx, by simp, fun _ _ => rfl⟩
  | cons c cs ih =>
    intro h hx hnew hfds hnodup
    rw [List.map_cons, List.nodup_cons] at hnodup
    obtain ⟨fd, hfd⟩ := hfds c List.mem_cons_self
    obtain ⟨task, h1, htask, hrun, hx1, ht1⟩ := addTimer_adds hx (hnew c List.mem_cons_self) hfd
    obtain ⟨h', hrest, hx', hown, hother⟩ := ih hx1 (fun q hq => hnew q (List.mem_cons_of_mem _ hq))
      (fun q hq => hfds q (List.mem_cons_of_mem _ hq)) hnodup.2
    refine ⟨h', ?_, hx', ?_, ?_⟩
    · rw [tasks, List.filterMap_cons, htask, runTasks, List.foldlM_cons, hrun]
      exact hrest
    · intro q hq g hg
      rcases List.mem_cons.mp hq with rfl | hq
      · rw [hfd] at hg
        cases hg
        rw [hother fd (hfd ▸ hnodup.1), ht1, Function.update_self]
      · exact hown q hq g hg
    · intro g hg
      rw [List.map_cons, List.mem_cons, not_or, hfd] at hg
      rw [hother g hg.2, ht1, Function.update_of_ne fun he => hg.1 (congrArg some he)]

theorem hash_low_iff (id : Bytes) : murmurHash2 id < 0x80000000 ↔ ∃ fd, sessionFd id = some fd := by
  rw [UInt32.lt_iff_toNat_lt]
  constructor
  · intro hlt
    exact ⟨⟨_, hlt⟩, sessionFd_eq_some.mpr rfl⟩
  · intro hfd
    obtain ⟨fd, hfd⟩ := hfd
    rw [sessionFd_eq_some.mp hfd]
    exact fd.isLt

theorem hash_eq_iff {id id' : Bytes} {fd : Fd} (hfd : sessionFd id = some fd) :
    murmurHash2 id' = murmurHash2 id ↔ sessionFd id' = some fd := by
  rw [sessionFd_eq_some, ← sessionFd_eq_some.mp hfd, UInt32.toNat_inj]

/-- Two sessions of one hash have one timer, and its callback refers to one variable. -/
theorem OwnTimers.apart (hown : OwnTimers h rs) :
    (∀ c ∈ calls rs, murmurHash2 c.session.id < 0x80000000) ∧
      ((calls rs).map fun c => murmurHash2 c.session.id).Nodup := by
  obtain ⟨h', -, htimer, -⟩ := hown
  have hfds : ∀ c ∈ calls rs, ∃ fd, sessionFd c.session.id = some fd := by
    intro c hc
    obtain ⟨t, ht, -⟩ := htimer c hc
    obtain ⟨fd, hfd, -⟩ := Option.bind_eq_some_iff.mp ht
    exact ⟨fd, hfd⟩
  have hcalls := calls_nodup rs
  refine ⟨fun c hc => (hash_low_iff _).mpr (hfds c hc),
    (List.nodup_map_iff_inj_on (List.Nodup.of_map _ hcalls)).mpr ?_⟩
  intro c hc c' hc' hhash
  obtain ⟨fd, hfd⟩ := hfds c hc
  have hfd' : sessionFd c'.session.id = some fd := (hash_eq_iff hfd).mp hhash.symm
  obtain ⟨t, ht, -, hcb⟩ := htimer c hc
  obtain ⟨t', ht', -, hcb'⟩ := htimer c' hc'
  rw [timerOf, hfd] at ht
  rw [timerOf, hfd', ht] at ht'
  have htt : t = t' := Option.some.inj ht'
  rw [htt, hcb'] at hcb
  exact List.inj_on_of_nodup_map hcalls hc hc' (TimeoutCallBack.handleSessionTimeout.inj hcb).symm

theorem ownTimers_of_apart (hx : h.Indexed) (hnew : ∀ c ∈ calls rs, c.session.status = .new)
    (hlow : ∀ c ∈ calls rs, murmurHash2 c.session.id < 0x80000000)
    (hnodup : ((calls rs).map fun c => murmurHash2 c.session.id).Nodup) : OwnTimers h rs := by
  have hfds : ∀ c ∈ calls rs, ∃ fd, sessionFd c.session.id = some fd := fun c hc => (hash_low_iff _).mp (hlow c hc)
  have hinj := List.inj_on_of_nodup_map hnodup
  have hkeys : ((calls rs).map fun c => sessionFd c.session.id).Nodup := by
    refine (List.nodup_map_iff_inj_on (List.Nodup.of_map _ hnodup)).mpr fun c hc c' hc' hkey => hinj hc hc' ?_
    obtain ⟨fd, hfd⟩ := hfds c' hc'
    exact (hash_eq_iff hfd).mpr (hkey.trans hfd)
  obtain ⟨h', hrun, hx', hown, -⟩ := runTasks_adds hx hnew hfds hkeys
  refine ⟨h', hrun, fun c hc => ?_, fun c hc c' hc' hne expire => ?_⟩
  · obtain ⟨fd, hfd⟩ := hfds c hc
    exact ⟨_, by rw [timerOf, hfd]; exact hown c hc fd hfd, rfl, rfl⟩
  · obtain ⟨fd, hfd⟩ := hfds c hc
    obtain ⟨fd', hfd'⟩ := hfds c' hc'
    have hdiff : fd' ≠ fd := by
      intro he
      have hcc : c' = c := hinj hc' hc ((hash_eq_iff hfd).mpr (hfd'.trans (congrArg some he)))
      exact hne (congrArg (fun c => c.session.id) hcc)
    obtain ⟨h'', he, hb⟩ := TimerHeap.adjust_becomes hx' fd expire
    refine ⟨h'', ?_, ?_⟩
    · rw [sessionFd] at hfd
      rw [TimerTask.run, hfd]
      exact he
    · rw [timerOf, timerOf, hfd', Option.bind_some, Option.bind_some, hb.timers, Function.update_of_ne hdiff]

/-- Each session has a timer of its own exactly when every id hashes below 2^31 and no two
    hash alike. -/
theorem own_timers_iff (hx : h.Indexed) (hnew : ∀ r ∈ rs, r.2.status = .new) :
    OwnTimers h rs ↔
      (∀ r ∈ rs, murmurHash2 r.2.id < 0x80000000) ∧ (rs.map fun r => murmurHash2 r.2.id).Nodup := by
  have hall : ∀ p : HttpSession → Prop, (∀ c ∈ calls rs, p c.session) ↔ ∀ r ∈ rs, p r.2 := by
    intro p
    have hsame := calls_sessions rs fun s => s
    constructor
    · intro h r hr
      obtain ⟨c, hc, hcr⟩ := List.mem_map.mp (hsame ▸ List.mem_map_of_mem hr)
      exact hcr ▸ h c hc
    · intro h c hc
      obtain ⟨r, hr, hrc⟩ := List.mem_map.mp (hsame ▸ List.mem_map_of_mem hc)
      exact hrc ▸ h r hr
  rw [← hall fun s => murmurHash2 s.id < 0x80000000, ← calls_sessions rs fun s => murmurHash2 s.id]
  constructor
  · exact fun hown => hown.apart
  · exact fun hgood => ownTimers_of_apart hx ((hall fun s => s.status = .new).mpr hnew) hgood.1 hgood.2

/-- Two sessions, whose ids hash to 0x6EC3F69B and 0x7638AE6E. -/
theorem own_timers_two : ∃ rs : List (Nat × HttpSession),
    rs.map (·.2.id) = [lit "00-00-00-00-00-00-00-00-00-00-00-00-00-00-00-00",
      lit "01-00-00-00-00-00-00-00-00-00-00-00-00-00-00-00"] ∧ OwnTimers .new rs := by
  let r0 : Nat × HttpSession := (0, ⟨lit "00-00-00-00-00-00-00-00-00-00-00-00-00-00-00-00", .new, 180⟩)
  let r1 : Nat × HttpSession := (1000000, ⟨lit "01-00-00-00-00-00-00-00-00-00-00-00-00-00-00-00", .new, 180⟩)
  have h0 : murmurHash2 r0.2.id = 0x6EC3F69B := by decide +kernel
  have h1 : murmurHash2 r1.2.id = 0x7638AE6E := by decide +kernel
  have hlow : murmurHash2 r0.2.id < 0x80000000 ∧ murmurHash2 r1.2.id < 0x80000000 := by
    rw [h0, h1]
    decide
  have hne : murmurHash2 r0.2.id ≠ murmurHash2 r1.2.id := by
    rw [h0, h1]
    decide
  refine ⟨[r0, r1], rfl, (own_timers_iff TimerHeap.indexed_new (by simp [r0, r1])).mpr ⟨?_, ?_⟩⟩
  · intro r hr
    rcases List.mem_pair.mp hr with rfl | rfl
    · exact hlow.1
    · exact hlow.2
  · rw [List.map_cons, List.map_singleton]
    exact List.nodup_cons.mpr ⟨fun h => hne (List.mem_singleton.mp h), List.nodup_singleton _⟩

/-- One session, whose id hashes to 0x9E89BFDB. -/
theorem own_timers_negative :
    ¬ ∀ (h : TimerHeap TimeoutCallBack) (rs : List (Nat × HttpSession)), h.Indexed → (rs.map (·.2.id)).Nodup →
      (∀ r ∈ rs, r.2.status = .new) → OwnTimers h rs := by
  intro hall
  let id := lit "02-00-00-00-00-00-00-00-00-00-00-00-00-00-00-00"
  obtain ⟨h', hrun, -⟩ := hall .new [(0, ⟨id, .new, 180⟩)] TimerHeap.indexed_new (List.nodup_singleton _) (by simp)
  have hhash : murmurHash2 id = 0x9E89BFDB := by decide +kernel
  have hfd : sessionFd id = none := by
    rw [Option.eq_none_iff_forall_ne_some]
    intro fd hfd
    have hlt := fd.isLt
    rw [sessionFd_eq_some, hhash] at hfd
    have hval : (0x9E89BFDB : UInt32).toNat = 0x9E89BFDB := by decide
    omega
  have hfail : TimerTask.run .new (.addTimer (sessionKey id) (nowSecond 0 180) (.handleSessionTimeout 0)) =
      .error .assertion := by
    rw [sessionFd] at hfd
    rw [TimerTask.run, hfd]
    rfl
  have htasks : tasks (calls [(0, ⟨id, .new, 180⟩)]) =
      [.addTimer (sessionKey id) (nowSecond 0 180) (.handleSessionTimeout 0)] := rfl
  rw [htasks, runTasks, List.foldlM_cons, hfail] at hrun
  cases hrun

end HttpServer

end HahaWeb
