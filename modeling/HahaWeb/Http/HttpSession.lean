/-
  HahaWeb.Http.HttpSession — `http/HttpSession` and `HttpRequest::getSession`: the session of
  a request.

  `getSession` gives back `session_`, or makes a session when it is null and the caller asks
  for one; the session made is put into the manager's table and not into `session_`. Proved:
  the calls of a request speak of one session, made at most once and found again, if and
  only if the request came with one, or none of its calls but the last asks for one
  (`oneSession_iff`). The session that a servlet makes is not the one `afterServlet` sees
  (`not_oneSession_new`), and so has no timer.

  What other requests and the timers do with the manager in between is part of a run. An
  id is what `uuid_generate` gives. Not modelled: the locks.
-/

import HahaWeb.Http.HttpRequest

namespace HahaWeb

/-- `HttpSession::ptr`: the place of a session among all that were made. -/
abbrev SessionPtr := Nat

/-- `HttpSession()` -/
def HttpSession.make (uuid : Bytes) : HttpSession := ⟨uuid, .new, 180⟩

structure HttpSessionManager where
  made : List HttpSession
  sessions : AList fun _ : Bytes => SessionPtr

namespace HttpSessionManager

def getSession (m : HttpSessionManager) (id : Bytes) : Option SessionPtr := m.sessions.lookup id

def addSession (m : HttpSessionManager) (id : Bytes) (session : SessionPtr) : HttpSessionManager :=
  { m with sessions := m.sessions.insert id session }

def newSession (m : HttpSessionManager) (uuid : Bytes) : SessionPtr × HttpSessionManager :=
  (m.made.length, ⟨m.made ++ [.make uuid], m.sessions.insert uuid m.made.length⟩)

def delSession (m : HttpSessionManager) (id : Bytes) : HttpSessionManager := { m with sessions := m.sessions.erase id }

/-- `setStatus` of a session. -/
def setStatus (m : HttpSessionManager) (session : SessionPtr) (status : HttpSession.Status) : HttpSessionManager :=
  { m with made := m.made.modify session fun s => { s with status := status } }

/-- What others do with the manager. -/
inductive Op where
  | addSession (id : Bytes) (session : SessionPtr)
  | newSession (uuid : Bytes)
  | delSession (id : Bytes)
  | setStatus (session : SessionPtr) (status : HttpSession.Status)
  deriving DecidableEq, Repr

def apply (m : HttpSessionManager) : Op → HttpSessionManager
  | .addSession id session => m.addSession id session
  | .newSession uuid => (m.newSession uuid).2
  | .delSession id => m.delSession id
  | .setStatus session status => m.setStatus session status

end HttpSessionManager

namespace HttpRequest

/-- `getSession`, where `session_` is `session`. -/
def getSession (session : Option SessionPtr) (m : HttpSessionManager) (uuid : Bytes) (autoCreate : Bool) :
    Option SessionPtr × HttpSessionManager :=
  match session with
  | some s => (some s, m)
  | none =>
    if autoCreate then
      let (s, m) := m.newSession uuid
      (some s, m)
    else (none, m)

/-- The `session_` of `parseSession`. -/
def sessionOf (m : HttpSessionManager) (ssid : Bytes) : Option SessionPtr :=
  if ssid.isEmpty then none else m.getSession ssid

/-- `sessionOf` is `parseSession`, where the table it reads has the manager's sessions. -/
theorem parseSession_session {D : Type} {env : Env D} {m : HttpSessionManager}
    (henv : ∀ id, env.sessions.lookup id = (m.getSession id).bind fun s => m.made[s]?) (rq : HttpRequest D) :
    (parseSession env rq).session = (sessionOf m rq.cookie.sessionId).bind fun s => m.made[s]? := by
  unfold parseSession sessionOf
  split
  · rfl
  · exact henv _

/-! ## The calls of a request -/

/-- What happens while a request is served: a call of `getSession`, or something of others. -/
inductive Event where
  | getSession (autoCreate : Bool) (uuid : Bytes)
  | elsewhere (op : HttpSessionManager.Op)
  deriving DecidableEq, Repr

/-- What a call has returned, and whether it has put a session into the manager. -/
structure Answer where
  session : Option SessionPtr
  added : Bool
  deriving DecidableEq, Repr

/-- The answers to the calls, in order. -/
def answers (session : Option SessionPtr) : HttpSessionManager → List Event → List Answer
  | _, [] => []
  | m, .elsewhere op :: es => answers session (m.apply op) es
  | m, .getSession autoCreate uuid :: es =>
    let (ret, m') := getSession session m uuid autoCreate
    ⟨ret, decide (m.made.length < m'.made.length)⟩ :: answers session m' es

/-- The calls' arguments. -/
def asked : List Event → List Bool
  | [] => []
  | .elsewhere _ :: es => asked es
  | .getSession autoCreate _ :: es => autoCreate :: asked es

/-- The calls speak of one session. -/
structure OneSession (as : List Answer) : Prop where
  same : ∀ a ∈ as, ∀ b ∈ as, ∀ s t, a.session = some s → b.session = some t → s = t
  once : (as.filter (·.added)).length ≤ 1
  kept : ∀ l a r s, as = l ++ a :: r → a.session = some s → ∀ b ∈ r, b.session = some s

/-- A request with a session answers every call with it. -/
theorem answers_some (s : SessionPtr) (es : List Event) : ∀ m, ∀ a ∈ answers (some s) m es, a = ⟨some s, false⟩ := by
  induction es with
  | nil => exact fun m a ha => absurd ha List.not_mem_nil
  | cons e es ih =>
    intro m a ha
    cases e with
    | elsewhere op => exact ih _ a ha
    | getSession autoCreate uuid =>
      rcases List.mem_cons.mp ha with rfl | ha
      · simp
      · exact ih m a ha

/-- Without one, a call that asks for a session adds one and returns it, and no other does. -/
theorem answers_none (es : List Event) : ∀ m, (answers none m es).map (·.added) = asked es ∧
    ∀ a ∈ answers none m es, a.session.isSome = a.added := by
  induction es with
  | nil => exact fun m => ⟨rfl, fun a ha => absurd ha List.not_mem_nil⟩
  | cons e es ih =>
    intro m
    cases e with
    | elsewhere op => exact ih _
    | getSession autoCreate uuid =>
      cases autoCreate with
      | false =>
        obtain ⟨hadded, hsession⟩ := ih m
        refine ⟨by simp [answers, getSession, asked, hadded], fun a ha => ?_⟩
        rcases List.mem_cons.mp ha with rfl | ha
        · simp
        · exact hsession a ha
      | true =>
        obtain ⟨hadded, hsession⟩ := ih (m.newSession uuid).2
        refine ⟨?_, fun a ha => ?_⟩
        · simp only [answers, getSession, asked, if_true, List.map_cons, hadded]
          simp [HttpSessionManager.newSession]
        · rcases List.mem_cons.mp ha with rfl | ha
          · simp
          · exact hsession a ha

/-- A call that adds a session and is not the last: the last one adds another. -/
theorem OneSession.early_adds_none {front : List Answer} {z : Answer} (hone : OneSession (front ++ [z]))
    (h : ∀ a ∈ front ++ [z], a.session.isSome = a.added) : true ∉ front.map (·.added) := by
  intro hin
  obtain ⟨a, ha, hadded⟩ := List.mem_map.mp hin
  obtain ⟨l, r, rfl⟩ := List.append_of_mem ha
  have hsome : a.session.isSome = true := (h a (by simp)).trans hadded
  obtain ⟨s, hs⟩ := Option.isSome_iff_exists.mp hsome
  -- the last call returns that session only by adding one of its own
  have hlast : z.session = some s := hone.kept l a (r ++ [z]) s (by simp) hs z (by simp)
  have hz : z.added = true := by
    rw [← h z (by simp), hlast]
    rfl
  have htwo := hone.once
  simp only [List.filter_append, List.filter_cons, hadded, hz, if_true, List.length_append, List.length_cons] at htwo
  omega

/-- Where only the last call may have a session, there is one at most. -/
theorem oneSession_of_last {front : List Answer} {z : Answer}
    (hnone : ∀ a ∈ front, a.session = none ∧ a.added = false) : OneSession (front ++ [z]) := by
  have hlast : ∀ a ∈ front ++ [z], ∀ s, a.session = some s → a = z := by
    intro a ha s hs
    rcases List.mem_append.mp ha with ha | ha
    · rw [(hnone a ha).1] at hs
      cases hs
    · exact List.mem_singleton.mp ha
  refine ⟨fun a ha b hb s t hs ht => ?_, ?_, fun l a r s heq hs b hb => ?_⟩
  · rw [hlast a ha s hs] at hs
    rw [hlast b hb t ht, hs] at ht
    exact Option.some.inj ht
  · have hfront : front.filter (·.added) = [] := by
      rw [List.filter_eq_nil_iff]
      exact fun a ha hadded => Bool.false_ne_true ((hnone a ha).2.symm.trans hadded)
    rw [List.filter_append, hfront, List.nil_append]
    exact List.length_filter_le ..
  · -- an answer with others behind it is not the last
    have hin : a ∈ front := by
      have hdrop := congrArg List.dropLast heq
      rw [List.dropLast_concat, List.dropLast_append_cons,
        List.dropLast_cons_of_ne_nil (List.ne_nil_of_mem hb)] at hdrop
      rw [hdrop]
      simp
    rw [(hnone a hin).1] at hs
    cases hs

/-- When every answer with a session has added it, only the last one may have. -/
theorem oneSession_of_added {as : List Answer} (h : ∀ a ∈ as, a.session.isSome = a.added) :
    OneSession as ↔ true ∉ (as.map (·.added)).dropLast := by
  rcases List.eq_nil_or_concat' as with rfl | ⟨front, z, rfl⟩
  · refine ⟨fun _ => List.not_mem_nil, fun _ => ⟨fun a ha => absurd ha List.not_mem_nil, Nat.zero_le _, ?_⟩⟩
    intro l a r s heq
    simp at heq
  rw [List.map_append, List.map_singleton, List.dropLast_concat]
  refine ⟨fun hone => hone.early_adds_none h, fun hno => oneSession_of_last fun a ha => ?_⟩
  have hadded : a.added = false := Bool.eq_false_iff.mpr fun hadded => hno (List.mem_map.mpr ⟨a, ha, hadded⟩)
  exact ⟨Option.not_isSome_iff_eq_none.mp (by rw [h a (by simp [ha]), hadded]; decide), hadded⟩

/-- The requests whose calls speak of one session. -/
theorem oneSession_iff (session : Option SessionPtr) (m : HttpSessionManager) (es : List Event) :
    OneSession (answers session m es) ↔ session.isSome = true ∨ true ∉ (asked es).dropLast := by
  cases session with
  | some s =>
    have hall := answers_some s es m
    refine ⟨fun _ => .inl rfl, fun _ => ⟨fun a ha b hb t u ht hu => ?_, ?_, fun l a r t heq ht b hb => ?_⟩⟩
    · rw [hall a ha] at ht
      rw [hall b hb] at hu
      exact Option.some.inj (ht.symm.trans hu)
    · rw [List.filter_eq_nil_iff.mpr fun a ha => by simp [hall a ha]]
      exact Nat.zero_le 1
    · rw [hall a (by rw [heq]; simp)] at ht
      rw [hall b (by rw [heq]; simp [hb])]
      exact ht
  | none =>
    obtain ⟨hadded, hsession⟩ := answers_none es m
    rw [oneSession_of_added hsession, hadded]
    simp

/-- A servlet makes a session, and `afterServlet` looks for it. -/
theorem not_oneSession_new : ¬ ∀ (session : Option SessionPtr) (m : HttpSessionManager) (es : List Event),
    OneSession (answers session m es) := by
  intro h
  have hone := h none ⟨[], ∅⟩ [.getSession true (lit "A"), .getSession false []]
  have hanswers : answers none ⟨[], ∅⟩ [.getSession true (lit "A"), .getSession false []] =
      [⟨some 0, true⟩, ⟨none, false⟩] := by decide
  rw [hanswers] at hone
  have hlost := hone.kept [] ⟨some 0, true⟩ [⟨none, false⟩] 0 rfl rfl ⟨none, false⟩ (by decide)
  cases hlost

end HttpRequest

end HahaWeb
