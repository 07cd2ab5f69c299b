/-
  HahaWeb.Http.RequestToken — what the parser does next with the bytes received.

  `token` is one step of `parseRequest`: a request line, a header, the blank line, a
  chunk's size line or data, a complete body. Each of its outcomes is inverted once
  (`token_take_cases`, `token_wait_cases`, `token_ok_cases`, `token_fault_cases`), and what
  every step keeps (`Kept`, `Wf`) is read off these.
-/

import HahaWeb.Http.HttpRequest
import HahaWeb.Library.Resumable

namespace HahaWeb.HttpRequest

open Resumable (Act Steps Ends Call Run Visits)

variable {D : Type} (env : Env D)

/-! ## Tokens -/

/-- How a reader stops for good. -/
inductive Verdict where
  | ok
  | bad
  | fault (f : Fault)
  deriving DecidableEq, Repr

def lineToken (lineMax : Nat) (rq : HttpRequest D) (x : Bytes) : Act (HttpRequest D) Verdict :=
  if lineMax < x.length then .halt 0 .bad rq
  else
    match find crlf x with
    | none => if badStart x then .halt 0 .bad rq else .wait 0 rq
    | some pos =>
      match parseLine rq (x.take pos) with
      | .error f => .halt 0 (.fault f) rq
      | .ok (none, rq) => .halt 0 .bad rq
      | .ok (some i, rq) => .take i { rq with state := .checkHeader }

def headerToken (rq : HttpRequest D) (x : Bytes) : Act (HttpRequest D) Verdict :=
  if x.isEmpty then .wait 0 rq
  else if crlf <+: x then
    match parseHeaders env rq with
    | .error f => .halt 0 (.fault f) rq
    | .ok rq => .take 2 { rq with state := .checkContent }
  else if maxRequestHeaderLen < rq.header.size then .halt 0 .bad rq
  else
    match find crlf x with
    | none => .wait 0 rq
    | some pos =>
      match headerLine (x.take pos) with
      | none => .halt 0 .bad rq
      | some (key, value) => .take (pos + 2) { rq with header := rq.header.add key value }

/-- A token of a chunk, `len` the value the size of the view is compared by. -/
def chunkTokenBy (len : Nat → Int) (rq : HttpRequest D) (x : Bytes) : Act (HttpRequest D) Verdict :=
  match rq.curChunkedState with
  | .noLen =>
    match find crlf (x.take (chunkSizeStrLimit + 2)) with
    | none => .wait 0 rq
    | some pos =>
      let size := hexSize (x.take pos)
      if size = 0 then .take (pos + 2) { rq with curChunkSize := size, curChunkedState := .done }
      else if size = -1 then .halt 0 .bad { rq with curChunkSize := size }
      else .take (pos + 2) { rq with curChunkSize := size, curChunkedState := .noData }
  | .noData =>
    if len x.length < rq.curChunkSize + 2 then .wait 0 rq
    else if rq.curChunkSize < 0 then .halt 0 (.fault .outOfRange) rq
    else
      let size := rq.curChunkSize.toNat
      if crlf <+: x.drop size then .take (size + 2)
        { rq with body := rq.body ++ x.take size, curChunkedState := .noLen }
      else .halt 0 .bad rq
  | .done => if x.length < 2 then .wait 0 rq else if crlf <+: x then .halt 2 .ok rq else .halt 0 .bad rq

/-- The source casts the size to `int`. -/
def chunkToken : HttpRequest D → Bytes → Act (HttpRequest D) Verdict := chunkTokenBy fun n => toInt n

/-- A complete body, the last `n` bytes of it just consumed. -/
def bodyToken (n : Nat) (rq : HttpRequest D) : Act (HttpRequest D) Verdict :=
  match parseBody env rq with
  | .error f => .halt n (.fault f) rq
  | .ok none => .wait n rq
  | .ok (some rq) => .halt n .ok { rq with state := .checkDone }

def contentToken (rq : HttpRequest D) (x : Bytes) : Act (HttpRequest D) Verdict :=
  if rq.hasTransferEncoding then
    if rq.chunked then
      match chunkToken rq x with
      | .halt n .ok rq => bodyToken env n rq
      | a => a
    else .halt 0 .bad rq
  else if rq.hasContentLength then
    if rq.body.length + x.length < rq.contentLength then .wait 0 rq
    else
      let acceptSize := sizeSub rq.contentLength rq.body.length
      if x.length < acceptSize then .halt 0 (.fault .outOfRange) rq
      else bodyToken env acceptSize { rq with body := rq.body ++ x.take acceptSize }
  else if rq.method = some .get ∨ rq.method = some .head then .halt 0 .ok { rq with state := .checkDone }
  else .halt 0 .bad rq

def token (lineMax : Nat) (rq : HttpRequest D) (x : Bytes) : Act (HttpRequest D) Verdict :=
  match rq.state with
  | .checkRequestLine => lineToken lineMax rq x
  | .checkHeader => headerToken env rq x
  | .checkContent => contentToken env rq x
  | .checkDone => .halt 0 .ok rq

section

variable {lineMax : Nat} {s : HttpRequest D} (x : Bytes)

theorem token_line (hs : s.state = .checkRequestLine) : token env lineMax s x = lineToken lineMax s x := by
  simp only [token, hs]

theorem token_header (hs : s.state = .checkHeader) : token env lineMax s x = headerToken env s x := by
  simp only [token, hs]

theorem token_content (hs : s.state = .checkContent) : token env lineMax s x = contentToken env s x := by
  simp only [token, hs]

end

/-- A header line that is not complete is waited for. -/
theorem headerToken_incomplete {s : HttpRequest D} {x : Bytes} (hf : find crlf x = none)
    (hs : s.header.size ≤ maxRequestHeaderLen) : headerToken env s x = .wait 0 s := by
  have hb : ¬ crlf <+: x := find_eq_none.mp hf 0 (Nat.zero_le _)
  unfold headerToken
  by_cases he : x.isEmpty = true
  · rw [if_pos he]
  · rw [if_neg he, if_neg hb, if_neg (not_lt.mpr hs), hf]

/-- Only such a line is, or nothing at all. -/
theorem headerToken_wait {s t : HttpRequest D} {x : Bytes} {n : Nat} (h : headerToken env s x = .wait n t) :
    x = [] ∨ s.header.size ≤ maxRequestHeaderLen ∧ find crlf x = none := by
  unfold headerToken at h
  split at h
  · rename_i he
    exact .inl (List.isEmpty_iff.mp he)
  · repeat' split at h
    all_goals first
      | cases h; exact .inr ⟨not_lt.mp ‹_›, ‹_›⟩
      | cases h

/-! ## What a chunk's token does -/

/-- Reading a chunk changes the body and the state of the chunks only. -/
theorem chunkToken_take {rq t : HttpRequest D} {x : Bytes} {n : Nat} (h : chunkToken rq x = .take n t) :
    ∃ body st size, t = { rq with body := body, curChunkedState := st, curChunkSize := size } := by
  unfold chunkToken chunkTokenBy at h
  dsimp only at h
  repeat' split at h
  all_goals first
    | cases h; exact ⟨_, _, _, rfl⟩
    | cases h

theorem chunkTokenBy_wait {len : Nat → Int} {rq t : HttpRequest D} {x : Bytes} {n : Nat}
    (h : chunkTokenBy len rq x = .wait n t) : n = 0 ∧ t = rq := by
  unfold chunkTokenBy at h
  dsimp only at h
  repeat' split at h
  all_goals first
    | cases h; exact ⟨rfl, rfl⟩
    | cases h

theorem chunkToken_halt {rq t : HttpRequest D} {x : Bytes} {n : Nat} (h : chunkToken rq x = .halt n .ok t) :
    rq.curChunkedState = .done ∧ n = 2 ∧ t = rq ∧ crlf <+: x := by
  unfold chunkToken chunkTokenBy at h
  dsimp only at h
  repeat' split at h
  all_goals first
    | cases h; exact ⟨‹_›, rfl, rfl, ‹_›⟩
    | cases h

theorem chunkToken_fault {rq t : HttpRequest D} {x : Bytes} {n : Nat} {f : Fault}
    (h : chunkToken rq x = .halt n (.fault f) t) : rq.curChunkSize < 0 := by
  unfold chunkToken chunkTokenBy at h
  dsimp only at h
  repeat' split at h
  all_goals first
    | cases h; assumption
    | cases h

/-! ## The body -/

/-- The body is complete with the next `n` bytes, and `rq` is the state holding it. -/
def Completes (s : HttpRequest D) (x : Bytes) (n : Nat) (rq : HttpRequest D) : Prop :=
  (s.hasTransferEncoding = true ∧ s.chunked = true ∧ s.curChunkedState = .done ∧ crlf <+: x ∧ n = 2 ∧ rq = s) ∨
    (s.hasTransferEncoding = false ∧ s.hasContentLength = true ∧ s.contentLength ≤ s.body.length + x.length ∧
      n = sizeSub s.contentLength s.body.length ∧ n ≤ x.length ∧ rq = { s with body := s.body ++ x.take n })

theorem Completes.state {s rq : HttpRequest D} {x : Bytes} {n : Nat} (h : Completes s x n rq) : rq.state = s.state := by
  rcases h with ⟨-, -, -, -, -, rfl⟩ | ⟨-, -, -, -, -, rfl⟩ <;> rfl

theorem Completes.header {s rq : HttpRequest D} {x : Bytes} {n : Nat} (h : Completes s x n rq) :
    rq.header = s.header := by
  rcases h with ⟨-, -, -, -, -, rfl⟩ | ⟨-, -, -, -, -, rfl⟩ <;> rfl

theorem contentToken_chunked {rq : HttpRequest D} (h1 : rq.hasTransferEncoding = true) (h2 : rq.chunked = true)
    (x : Bytes) :
    contentToken env rq x = match chunkToken rq x with
      | .halt n .ok rq => bodyToken env n rq
      | a => a := by
  simp only [contentToken, h1, h2, if_true]

theorem contentToken_of_completes {s rq : HttpRequest D} {x : Bytes} {n : Nat} (h : Completes s x n rq) :
    contentToken env s x = bodyToken env n rq := by
  unfold contentToken
  dsimp only
  rcases h with ⟨h1, h2, h3, h4, rfl, rfl⟩ | ⟨h1, h2, h3, h4, h5, rfl⟩
  · have hl := h4.length_le
    simp only [crlf, List.length_cons, List.length_nil] at hl
    rw [if_pos h1, if_pos h2]
    simp only [chunkToken, chunkTokenBy, h3, if_neg (show ¬ x.length < 2 by omega), if_pos h4]
  · rw [if_neg (by simp [h1]), if_pos h2, if_neg (not_lt.mpr h3), ← h4, if_neg (not_lt.mpr h5)]

theorem contentToken_cases (s : HttpRequest D) (x : Bytes) :
    (∃ n rq, Completes s x n rq ∧ contentToken env s x = bodyToken env n rq) ∨
    (s.hasTransferEncoding = true ∧ s.chunked = true ∧ (∀ n t, chunkToken s x ≠ .halt n .ok t) ∧
      contentToken env s x = chunkToken s x) ∨
    (s.hasTransferEncoding = true ∧ s.chunked = false ∧ contentToken env s x = .halt 0 .bad s) ∨
    (s.hasTransferEncoding = false ∧ s.hasContentLength = true ∧ s.body.length + x.length < s.contentLength ∧
      contentToken env s x = .wait 0 s) ∨
    (s.hasTransferEncoding = false ∧ s.hasContentLength = true ∧ s.contentLength ≤ s.body.length + x.length ∧
      x.length < sizeSub s.contentLength s.body.length ∧ contentToken env s x = .halt 0 (.fault .outOfRange) s) ∨
    (s.hasTransferEncoding = false ∧ s.hasContentLength = false ∧ (s.method = some .get ∨ s.method = some .head) ∧
      contentToken env s x = .halt 0 .ok { s with state := .checkDone }) ∨
    (s.hasTransferEncoding = false ∧ s.hasContentLength = false ∧ ¬ (s.method = some .get ∨ s.method = some .head) ∧
      contentToken env s x = .halt 0 .bad s) := by
  by_cases h1 : s.hasTransferEncoding = true
  · by_cases h2 : s.chunked = true
    · by_cases hc : ∃ n t, chunkToken s x = .halt n .ok t
      · obtain ⟨n, t, hc⟩ := hc
        obtain ⟨h3, rfl, rfl, h4⟩ := chunkToken_halt hc
        have hcm : Completes t x 2 t := .inl ⟨h1, h2, h3, h4, rfl, rfl⟩
        exact .inl ⟨2, t, hcm, contentToken_of_completes env hcm⟩
      · have hne : ∀ n t, chunkToken s x ≠ .halt n .ok t := fun n t h => hc ⟨n, t, h⟩
        refine .inr (.inl ⟨h1, h2, hne, ?_⟩)
        rw [contentToken, if_pos h1, if_pos h2]
        split
        · exact absurd ‹_› (hne _ _)
        · rfl
    · exact .inr (.inr (.inl ⟨h1, by simpa using h2, by rw [contentToken, if_pos h1, if_neg h2]⟩))
  · have h1' : s.hasTransferEncoding = false := by simpa using h1
    by_cases h2 : s.hasContentLength = true
    · by_cases hw : s.body.length + x.length < s.contentLength
      · exact .inr (.inr (.inr (.inl ⟨h1', h2, hw, by rw [contentToken, if_neg h1, if_pos h2, if_pos hw]⟩)))
      · by_cases hk : x.length < sizeSub s.contentLength s.body.length
        · refine .inr (.inr (.inr (.inr (.inl ⟨h1', h2, not_lt.mp hw, hk, ?_⟩))))
          rw [contentToken, if_neg h1, if_pos h2, if_neg hw]
          exact if_pos hk
        · have hcm : Completes s x _ _ := .inr ⟨h1', h2, not_lt.mp hw, rfl, not_lt.mp hk, rfl⟩
          exact .inl ⟨_, _, hcm, contentToken_of_completes env hcm⟩
    · have h2' : s.hasContentLength = false := by simpa using h2
      by_cases hm : s.method = some .get ∨ s.method = some .head
      · refine .inr (.inr (.inr (.inr (.inr (.inl ⟨h1', h2', hm, ?_⟩)))))
        rw [contentToken, if_neg h1, if_neg h2, if_pos hm]
      · refine .inr (.inr (.inr (.inr (.inr (.inr ⟨h1', h2', hm, ?_⟩)))))
        rw [contentToken, if_neg h1, if_neg h2, if_neg hm]

theorem bodyToken_not_take {rq t : HttpRequest D} {n m : Nat} : bodyToken env n rq ≠ .take m t := by
  unfold bodyToken
  split <;> simp

theorem bodyToken_wait {rq t : HttpRequest D} {n m : Nat} (h : bodyToken env n rq = .wait m t) :
    m = n ∧ t = rq ∧ parseBody env t = .ok none := by
  unfold bodyToken at h
  split at h <;> cases h
  exact ⟨rfl, rfl, ‹_›⟩

/-- The text a multipart body has to end with. -/
def endOfBody (rq : HttpRequest D) : Bytes := lit "--" ++ rq.multipart.getBoundary ++ lit "--\r\n"

/-- A multipart body is parsed when it ends with this text, or is no longer than it. -/
theorem parseBody_multipart {rq : HttpRequest D} (h1 : rq.hasContentType = true)
    (h2 : rq.contentType = some .multipart) :
    parseBody env rq = if (endOfBody rq).length < rq.body.length ∧ ¬ endOfBody rq <:+ rq.body then .ok none
      else (rq.multipart.parse rq.body).map fun mp => some { rq with multipart := mp } := by
  have hsuf : endOfBody rq <:+ rq.body ↔ rq.body.drop (rq.body.length - (endOfBody rq).length) = endOfBody rq := by
    rw [List.suffix_iff_eq_drop, eq_comm]
  have hp : parseBody env rq = if (endOfBody rq).length < rq.body.length ∧
      rq.body.drop (rq.body.length - (endOfBody rq).length) ≠ endOfBody rq then .ok none
      else (rq.multipart.parse rq.body).bind fun mp => .ok (some { rq with multipart := mp }) := by
    unfold parseBody
    rw [if_pos h1]
    split
    · rfl
    all_goals simp_all
  rw [hp]
  simp only [ne_eq, ← hsuf]
  split
  · rfl
  · cases rq.multipart.parse rq.body <;> rfl

/-- A complete body makes the parser wait only if it is a multipart body that ends otherwise. -/
theorem parseBody_none {rq : HttpRequest D} (h : parseBody env rq = .ok none) :
    rq.hasContentType = true ∧ rq.contentType = some .multipart ∧ ¬ endOfBody rq <:+ rq.body := by
  by_cases hct : rq.hasContentType = true
  · by_cases hm : rq.contentType = some .multipart
    · rw [parseBody_multipart env hct hm] at h
      split at h
      · rename_i hb
        exact ⟨hct, hm, hb.2⟩
      · cases hp : rq.multipart.parse rq.body <;> rw [hp] at h <;> cases h
    · unfold parseBody at h
      rw [if_pos hct] at h
      split at h
      · exact absurd ‹_› hm
      · cases hp : parseKeyValue rq.body (lit "=") (lit "&") rq.form true <;> simp [hp, bind, Except.bind] at h
      · cases hp : parseKeyValue rq.body (lit "=") (lit "&") rq.form false <;> simp [hp, bind, Except.bind] at h
      · cases hp : Json.fromString env.stod rq.body <;> simp [hp, bind, Except.bind] at h
      · simp at h
  · unfold parseBody at h
    rw [if_neg hct] at h
    cases h

/-- Decoding a body sets the multipart data, the form or the JSON value. -/
theorem parseBody_some {rq rq' : HttpRequest D} (h : parseBody env rq = .ok (some rq')) :
    ∃ mp form json, rq' = { rq with multipart := mp, form := form, json := json } := by
  unfold parseBody at h
  split at h
  · split at h
    · dsimp only at h
      split at h
      · cases h
      · cases hp : rq.multipart.parse rq.body with
        | error f => rw [hp] at h; cases h
        | ok mp => rw [hp] at h; cases h; exact ⟨_, _, _, rfl⟩
    · cases hp : parseKeyValue rq.body (lit "=") (lit "&") rq.form true with
      | error f => rw [hp] at h; cases h
      | ok form => rw [hp] at h; cases h; exact ⟨_, _, _, rfl⟩
    · cases hp : parseKeyValue rq.body (lit "=") (lit "&") rq.form false with
      | error f => rw [hp] at h; cases h
      | ok form => rw [hp] at h; cases h; exact ⟨_, _, _, rfl⟩
    · cases hp : Json.fromString env.stod rq.body with
      | error f => rw [hp] at h; cases h
      | ok json => rw [hp] at h; cases h; exact ⟨_, _, _, rfl⟩
    · cases h; exact ⟨_, _, _, rfl⟩
  · cases h; exact ⟨_, _, _, rfl⟩

/-! ## What a token does -/

/-- The tokens a request goes on with: its line, the blank line, a header, a part of a chunk. -/
theorem token_take_cases {lineMax n : Nat} {s t : HttpRequest D} {x : Bytes} (h : token env lineMax s x = .take n t) :
    (s.state = .checkRequestLine ∧ ∃ pos rq', x.length ≤ lineMax ∧ find crlf x = some pos ∧
      parseLine s (x.take pos) = .ok (some n, rq') ∧ t = { rq' with state := .checkHeader }) ∨
    (s.state = .checkHeader ∧ crlf <+: x ∧ n = 2 ∧
      ∃ rq', parseHeaders env s = .ok rq' ∧ t = { rq' with state := .checkContent }) ∨
    (s.state = .checkHeader ∧ ∃ pos key value, ¬ crlf <+: x ∧ s.header.size ≤ maxRequestHeaderLen ∧
      find crlf x = some pos ∧ headerLine (x.take pos) = some (key, value) ∧ n = pos + 2 ∧
      t = { s with header := s.header.add key value }) ∨
    (s.state = .checkContent ∧ s.hasTransferEncoding = true ∧ s.chunked = true ∧ chunkToken s x = .take n t) := by
  unfold token at h
  split at h
  · rename_i hs
    refine .inl ⟨hs, ?_⟩
    unfold lineToken at h
    repeat' split at h
    all_goals first
      | cases h; exact ⟨_, _, not_lt.mp ‹_›, ‹_›, ‹_›, rfl⟩
      | cases h
  · rename_i hs
    unfold headerToken at h
    repeat' split at h
    all_goals first
      | cases h; exact .inr (.inl ⟨hs, ‹_›, rfl, _, ‹_›, rfl⟩)
      | cases h; exact .inr (.inr (.inl ⟨hs, _, _, _, ‹_›, not_lt.mp ‹_›, ‹_›, ‹_›, rfl, rfl⟩))
      | cases h
  · rename_i hs
    rcases contentToken_cases env s x with ⟨_, _, -, hc⟩ | ⟨h1, h2, -, hc⟩ | ⟨-, -, hc⟩ | ⟨-, -, -, hc⟩ |
      ⟨-, -, -, -, hc⟩ | ⟨-, -, -, hc⟩ | ⟨-, -, -, hc⟩ <;> rw [hc] at h
    · exact absurd h (bodyToken_not_take env)
    · exact .inr (.inr (.inr ⟨hs, h1, h2, h⟩))
    all_goals cases h
  · cases h

/-- Waiting changes nothing, unless it is for a multipart body, all of it there, to end as it should. -/
theorem token_wait_cases {lineMax n : Nat} {s t : HttpRequest D} {x : Bytes} (h : token env lineMax s x = .wait n t) :
    s.state ≠ .checkDone ∧ ((n = 0 ∧ t = s) ∨
      (s.state = .checkContent ∧ Completes s x n t ∧ parseBody env t = .ok none)) := by
  unfold token at h
  split at h
  · rename_i hs
    refine ⟨by simp [hs], .inl ?_⟩
    unfold lineToken at h
    repeat' split at h
    all_goals first
      | cases h; exact ⟨rfl, rfl⟩
      | cases h
  · rename_i hs
    refine ⟨by simp [hs], .inl ?_⟩
    unfold headerToken at h
    repeat' split at h
    all_goals first
      | cases h; exact ⟨rfl, rfl⟩
      | cases h
  · rename_i hs
    refine ⟨by simp [hs], ?_⟩
    rcases contentToken_cases env s x with ⟨_, _, hcm, hc⟩ | ⟨h1, h2, -, hc⟩ | ⟨-, -, hc⟩ | ⟨-, -, -, hc⟩ |
      ⟨-, -, -, -, hc⟩ | ⟨-, -, -, hc⟩ | ⟨-, -, -, hc⟩ <;> rw [hc] at h
    · obtain ⟨rfl, rfl, hb⟩ := bodyToken_wait env h
      exact .inr ⟨hs, hcm, hb⟩
    · exact .inl (chunkTokenBy_wait h)
    · cases h
    · cases h; exact .inl ⟨rfl, rfl⟩
    all_goals cases h
  · cases h

/-- A request is done when its body has been decoded, or has none. -/
theorem token_ok_cases {lineMax n : Nat} {s t : HttpRequest D} {x : Bytes} (hs : s.state ≠ .checkDone)
    (h : token env lineMax s x = .halt n .ok t) : s.state = .checkContent ∧
      ((∃ rq rq', Completes s x n rq ∧ parseBody env rq = .ok (some rq') ∧ t = { rq' with state := .checkDone }) ∨
        (s.hasTransferEncoding = false ∧ s.hasContentLength = false ∧ (s.method = some .get ∨ s.method = some .head) ∧
          n = 0 ∧ t = { s with state := .checkDone })) := by
  unfold token at h
  split at h
  · unfold lineToken at h
    repeat' split at h
    all_goals cases h
  · unfold headerToken at h
    repeat' split at h
    all_goals cases h
  · rename_i hs
    refine ⟨hs, ?_⟩
    rcases contentToken_cases env s x with ⟨_, _, hcm, hc⟩ | ⟨h1, h2, hne, hc⟩ | ⟨-, -, hc⟩ | ⟨-, -, -, hc⟩ |
      ⟨-, -, -, -, hc⟩ | ⟨h1, h2, hm, hc⟩ | ⟨-, -, -, hc⟩ <;> rw [hc] at h
    · unfold bodyToken at h
      split at h <;> cases h
      exact .inl ⟨_, _, hcm, ‹_›, rfl⟩
    · exact absurd h (hne _ _)
    · cases h
    · cases h
    · cases h
    · cases h; exact .inr ⟨h1, h2, hm, rfl, rfl⟩
    · cases h
  · contradiction

/-- The places a fault can come from. -/
theorem token_fault_cases {lineMax n : Nat} {s t : HttpRequest D} {x : Bytes} {f : Fault}
    (h : token env lineMax s x = .halt n (.fault f) t) :
    (s.state = .checkRequestLine ∧ x.length ≤ lineMax ∧ ∃ pos, find crlf x = some pos ∧
      parseLine s (x.take pos) = .error f) ∨
    (s.state = .checkHeader ∧ crlf <+: x ∧ parseHeaders env s = .error f) ∨
    (s.state = .checkContent ∧ ((∃ rq, Completes s x n rq ∧ parseBody env rq = .error f) ∨ s.curChunkSize < 0 ∨
      (s.hasTransferEncoding = false ∧ s.hasContentLength = true ∧ s.contentLength ≤ s.body.length + x.length ∧
        x.length < sizeSub s.contentLength s.body.length))) := by
  unfold token at h
  split at h
  · rename_i hs
    unfold lineToken at h
    repeat' split at h
    all_goals first
      | cases h; exact .inl ⟨hs, not_lt.mp ‹_›, _, ‹_›, ‹_›⟩
      | cases h
  · rename_i hs
    unfold headerToken at h
    repeat' split at h
    all_goals first
      | cases h; exact .inr (.inl ⟨hs, ‹_›, ‹_›⟩)
      | cases h
  · rename_i hs
    refine .inr (.inr ⟨hs, ?_⟩)
    rcases contentToken_cases env s x with ⟨_, _, hcm, hc⟩ | ⟨h1, h2, -, hc⟩ | ⟨-, -, hc⟩ | ⟨-, -, -, hc⟩ |
      ⟨h1, h2, h3, h4, hc⟩ | ⟨-, -, -, hc⟩ | ⟨-, -, -, hc⟩ <;> rw [hc] at h
    · unfold bodyToken at h
      split at h <;> cases h
      exact .inl ⟨_, hcm, ‹_›⟩
    · exact .inr (.inl (chunkToken_fault h))
    · cases h
    · cases h
    · exact .inr (.inr ⟨h1, h2, h3, h4⟩)
    all_goals cases h
  · cases h

/-! ## What is kept -/

/-- A token that goes on, or waits, keeps what only the end of a request sets. -/
structure Kept (s t : HttpRequest D) : Prop where
  undone : t.state ≠ .checkDone
  retState : t.retState = s.retState
  multipart : t.multipart = s.multipart
  form : t.form = s.form
  json : t.json = s.json

theorem token_take {lineMax n : Nat} {s t : HttpRequest D} {x : Bytes} (h : token env lineMax s x = .take n t) :
    Kept s t := by
  rcases token_take_cases env h with ⟨-, pos, rq', -, -, hp, rfl⟩ | ⟨-, -, -, rq', hp, rfl⟩ |
    ⟨hs, pos, key, value, -, -, -, -, -, rfl⟩ | ⟨hs, -, -, hc⟩
  · obtain ⟨-, m, url, v, rfl⟩ := parseLine_ok hp
    exact ⟨by simp, rfl, rfl, rfl, rfl⟩
  · obtain ⟨k, a, c, hc, ck, n, te, s, rfl, -⟩ := parseHeaders_ok env hp
    exact ⟨by simp, rfl, rfl, rfl, rfl⟩
  · exact ⟨by simp [hs], rfl, rfl, rfl, rfl⟩
  · obtain ⟨body, st, size, rfl⟩ := chunkToken_take hc
    exact ⟨by simp [hs], rfl, rfl, rfl, rfl⟩

theorem token_wait {lineMax n : Nat} {s t : HttpRequest D} {x : Bytes} (h : token env lineMax s x = .wait n t) :
    Kept s t := by
  obtain ⟨hd, ⟨-, rfl⟩ | ⟨hs, ⟨-, -, -, -, -, rfl⟩ | ⟨-, -, -, -, -, rfl⟩, -⟩⟩ := token_wait_cases env h
  · exact ⟨hd, rfl, rfl, rfl, rfl⟩
  · exact ⟨hd, rfl, rfl, rfl, rfl⟩
  · exact ⟨hd, rfl, rfl, rfl, rfl⟩

/-- What steps and waits keep of the state a call began in. -/
theorem steps_kept {lineMax : Nat} {p q : HttpRequest D × Bytes} (h : Steps (token env lineMax) p q)
    (hp : p.1.state ≠ .checkDone) : Kept p.1 q.1 := by
  induction h with
  | refl => exact ⟨hp, rfl, rfl, rfl, rfl⟩
  | tail _ hq ih =>
    obtain ⟨n, hn, -⟩ := hq
    have hk := token_take env hn
    exact ⟨hk.undone, hk.retState.trans ih.retState, hk.multipart.trans ih.multipart, hk.form.trans ih.form,
      hk.json.trans ih.json⟩

theorem call_kept {lineMax : Nat} {s t : HttpRequest D} {x y : Bytes} (h : Call (token env lineMax) s x none t y)
    (hs : s.state ≠ .checkDone) : Kept s t := by
  obtain ⟨s', x', hst, he⟩ := h
  have h1 := steps_kept env hst hs
  cases he with
  | wait he =>
    have h2 := token_wait env he
    exact ⟨h2.undone, h2.retState.trans h1.retState, h2.multipart.trans h1.multipart, h2.form.trans h1.form,
      h2.json.trans h1.json⟩

theorem visits_undone {lineMax : Nat} {s t : HttpRequest D} {x y : Bytes} {reads : List Bytes}
    (h : Visits (token env lineMax) s x reads t y) (hs : s.state ≠ .checkDone) : t.state ≠ .checkDone :=
  h.invariant (V := fun _ _ => True) (P := fun s => s.state ≠ .checkDone) (fun _ _ h => (token_take env h).undone)
    (fun _ _ h => (token_wait env h).undone) hs fun _ _ _ => trivial

/-- A header takes at least its own size from the input. -/
theorem steps_header_size {lineMax : Nat} {p q : HttpRequest D × Bytes} (h : Steps (token env lineMax) p q) :
    q.1.header.size + q.2.length ≤ p.1.header.size + p.2.length := by
  induction h with
  | refl => exact Nat.le_refl _
  | @tail q r _ hq ih =>
    obtain ⟨s, x⟩ := q
    obtain ⟨t, y⟩ := r
    obtain ⟨n, hn, hy⟩ := hq
    simp only at hn hy ih ⊢
    refine Nat.le_trans ?_ ih
    rw [hy, List.length_drop]
    rcases token_take_cases env hn with ⟨-, pos, rq', -, -, hp, rfl⟩ | ⟨-, -, -, rq', hp, rfl⟩ |
      ⟨-, pos, key, value, -, -, hf, hl, rfl, rfl⟩ | ⟨-, -, -, hc⟩
    · obtain ⟨-, m, url, v, rfl⟩ := parseLine_ok hp
      dsimp only
      omega
    · obtain ⟨k, a, c, hc, ck, n, te, s, rfl, -⟩ := parseHeaders_ok env hp
      dsimp only
      omega
    · have hlen := headerLine_length hl
      have hle := find_le hf
      simp only [crlf, List.length_take, List.length_cons, List.length_nil] at hlen hle
      simp only [HttpHeader.add_size]
      omega
    · obtain ⟨body, st, size, rfl⟩ := chunkToken_take hc
      dsimp only
      omega

/-! ## States -/

/-- Before the blank line nothing of the content is set. -/
structure Early (s : HttpRequest D) : Prop where
  body : s.body = []
  hasContentType : s.hasContentType = false
  contentType : s.contentType = none
  hasContentLength : s.hasContentLength = false
  hasTransferEncoding : s.hasTransferEncoding = false
  chunked : s.chunked = false
  curChunkedState : s.curChunkedState = .noLen

/-- What holds of the parser's state between tokens. -/
structure Wf (s : HttpRequest D) : Prop where
  line : s.state = .checkRequestLine → s.header = .new
  early : s.state = .checkRequestLine ∨ s.state = .checkHeader → Early s
  length : s.state = .checkContent → s.hasTransferEncoding = false → s.hasContentLength = true →
    s.body.length ≤ s.contentLength ∧ s.contentLength < 2 ^ 64
  chunk : 0 ≤ s.curChunkSize ∧ s.curChunkSize ≤ 200000

theorem undone_new : (new : HttpRequest D).state ≠ .checkDone := by simp [new]

theorem wf_new : Wf (new : HttpRequest D) :=
  ⟨fun _ => rfl, fun _ => ⟨rfl, rfl, rfl, rfl, rfl, rfl, rfl⟩, by simp [new], by simp [new]⟩

/-- A fresh request waits for its first byte. -/
theorem token_new_nil {lineMax : Nat} : token env lineMax (new : HttpRequest D) [] = .wait 0 new := by
  have hb : badStart [] = false := rfl
  have hf : find crlf [] = none := rfl
  simp only [token, new, lineToken, List.length_nil, Nat.not_lt_zero, if_false, hf, hb, Bool.false_eq_true]

/-- A size line has no more than five digits. -/
theorem sizeLine_le {x : Bytes} {pos : Nat} (hf : find crlf (x.take (chunkSizeStrLimit + 2)) = some pos) :
    (x.take pos).length ≤ chunkSizeStrLimit ∧ hexSize (x.take pos) ≤ 200000 := by
  have hle := find_le hf
  have hlen : (x.take pos).length ≤ 5 := by
    simp only [List.length_take, chunkSizeStrLimit, crlf, List.length_cons, List.length_nil] at *
    omega
  refine ⟨hlen, (hexSize_le (x.take pos)).trans ?_⟩
  have hpow : (10 : Int) ^ (x.take pos).length ≤ 10 ^ 5 := by
    gcongr
    norm_num
  omega

theorem chunkToken_take_size {rq t : HttpRequest D} {x : Bytes} {n : Nat} (h : chunkToken rq x = .take n t)
    (h0 : 0 ≤ rq.curChunkSize ∧ rq.curChunkSize ≤ 200000) : 0 ≤ t.curChunkSize ∧ t.curChunkSize ≤ 200000 := by
  unfold chunkToken chunkTokenBy at h
  dsimp only at h
  repeat' split at h
  all_goals first
    | cases h; exact ⟨hexSize_nonneg ‹_›, (sizeLine_le ‹_›).2⟩
    | cases h; exact ⟨by simp_all, (sizeLine_le ‹_›).2⟩
    | cases h; exact h0
    | cases h

theorem Wf.take {lineMax n : Nat} {s t : HttpRequest D} {x : Bytes} (hw : Wf s)
    (h : token env lineMax s x = .take n t) :
    Wf t ∧ t.state ≠ .checkRequestLine := by
  rcases token_take_cases env h with ⟨hs, pos, rq', -, -, hp, rfl⟩ | ⟨hs, -, -, rq', hp, rfl⟩ |
    ⟨hs, pos, key, value, -, -, -, -, -, rfl⟩ | ⟨hs, hte, -, hc⟩
  · obtain ⟨-, m, url, v, rfl⟩ := parseLine_ok hp
    obtain ⟨h1, h2, h3, h4, h5, h6, h7⟩ := hw.early (.inl hs)
    exact ⟨⟨by simp, fun _ => ⟨h1, h2, h3, h4, h5, h6, h7⟩, by simp, hw.chunk⟩, by simp⟩
  · have he := hw.early (.inr hs)
    obtain ⟨k, a, c, hc, ck, n, te, s, rfl, hn⟩ := parseHeaders_ok env hp
    refine ⟨⟨by simp, by simp, fun _ _ hl => ?_, hw.chunk⟩, by simp⟩
    simp only [he.hasContentLength, Bool.false_or, Option.isSome_iff_exists] at hl
    obtain ⟨v, hv⟩ := hl
    exact ⟨by simp [he.body], stoul_lt (hn v hv)⟩
  · obtain ⟨h1, h2, h3, h4, h5, h6, h7⟩ := hw.early (.inr hs)
    exact ⟨⟨by simp [hs], fun _ => ⟨h1, h2, h3, h4, h5, h6, h7⟩, by simp [hs], hw.chunk⟩, by simp [hs]⟩
  · have hsz := chunkToken_take_size hc hw.chunk
    obtain ⟨body, st, size, rfl⟩ := chunkToken_take hc
    exact ⟨⟨by simp [hs], by simp [hs], by simp [hte], hsz⟩, by simp [hs]⟩

theorem Wf.wait {lineMax n : Nat} {s t : HttpRequest D} {x : Bytes} (hw : Wf s)
    (h : token env lineMax s x = .wait n t) :
    Wf t := by
  obtain ⟨-, ⟨-, rfl⟩ | ⟨hs, ⟨-, -, -, -, -, rfl⟩ | ⟨h1, h2, hle, rfl, -, rfl⟩, -⟩⟩ := token_wait_cases env h
  · exact hw
  · exact hw
  · obtain ⟨hlen, hcl⟩ := hw.length hs h1 h2
    refine ⟨by simp [hs], by simp [hs], fun _ _ _ => ⟨?_, hcl⟩, hw.chunk⟩
    rw [sizeSub_of_le hlen hcl]
    simp only [List.length_append, List.length_take]
    omega

theorem Wf.visits {lineMax : Nat} {s t : HttpRequest D} {x y : Bytes} {reads : List Bytes}
    (h : Visits (token env lineMax) s x reads t y) (hs : Wf s) : Wf t :=
  h.invariant (V := fun _ _ => True) (fun _ hw h => (hw.take env h).1) (fun _ hw h => hw.wait env h) hs fun _ _
    _ => trivial

end HahaWeb.HttpRequest
