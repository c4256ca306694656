/-
  Shclaw.Http.Settings — whose settings a request carries (`src/http.c`).

  One thread sets headers and timeouts and makes calls, in any order and with any
  outcome (`Ev`). The settings are its thread-local state; every request that goes out
  is logged with its place in its call (a redirect chain has several) and the settings
  made since the call before returned (`Sent`).

  `do_request` consumes both settings on every way out (`doRequest_spec`), so the
  requests after the first of a chain find none (`followRedirects_spec`). But
  `http_get` refuses an address of 2048 bytes or more before it calls `do_request`, and
  leaves them for the next call.

  Proved: in every run in which no such address is passed while a header or a timeout
  is set, every request carries settings of its own call only (`requests_own`).
  Trace: an `Authorization` header set for a long address goes out with the next
  request, to another host (`header_to_next_host`).
-/

import Shclaw.Lib.Runs
import Shclaw.Http.Request

namespace Shclaw.Http

open Lib

/-! ## Runs -/

inductive Setting where
  | header (name value : Option Str)
  | timeout (seconds : Int)

def Setting.apply : Setting → Settings → Settings
  | .header name value => httpSetHeader name value
  | .timeout seconds => httpSetTimeout seconds

inductive Call where
  | get (url : Str) (nets : Nat → Net)
  | post (url contentType : Option Str) (body : Str) (net : Net)
  | postJson (url json : Option Str) (net : Net)

def Call.run : Call → Settings → Response × List Request × Settings
  | .get url nets => httpGet url nets
  | .post url contentType body net => httpPost url contentType body net
  | .postJson url json net => httpPostJson url json net

/-- A request that went out. -/
structure Sent where
  request : Request
  /-- Its place among those of its call. -/
  hop : Nat
  /-- The settings made since the call before this one returned. -/
  since : List Setting

structure St where
  settings : Settings
  since : List Setting
  log : List Sent

inductive Ev where
  | set (x : Setting)
  | call (c : Call)

def step (s : St) : Ev → Option St
  | .set x => some { s with settings := x.apply s.settings, since := s.since ++ [x] }
  | .call c =>
    let r := c.run s.settings
    some { settings := r.2.2, since := [], log := s.log ++ r.2.1.mapIdx fun i q => ⟨q, i, s.since⟩ }

def thread : System St Ev where
  init := ⟨.fresh, [], []⟩
  step := step

/-- A request carries what was set for its own call, and only the first of a call any
    header. -/
structure Own (x : Sent) : Prop where
  header : ∀ h ∈ x.request.extraHdrs, ∃ name value, Setting.header (some name) value ∈ x.since ∧ h = stored name value
  first : x.hop ≠ 0 → x.request.extraHdrs = []
  timeout : x.request.timeout = 0 ∨ Setting.timeout x.request.timeout ∈ x.since

/-- No address too long for `http_get` is passed while a header or a timeout is set. -/
def Consumed (s : St) : Ev → Prop
  | .call (.get url _) => url.length < 2048 ∨ s.settings = .fresh
  | _ => True

instance (s : St) (e : Ev) : Decidable (Consumed s e) := by
  unfold Consumed
  split <;> infer_instance

/-! ## What a call consumes -/

/-- A request takes the settings there are and leaves none. -/
theorem doRequest_spec (method : Str) (url contentType : Option Str) (body : Str) (net : Net) (s : Settings) :
    (doRequest method url contentType body net s).2.2 = .fresh ∧
    (doRequest method url contentType body net s).2.1.length ≤ 1 ∧
    ∀ q ∈ (doRequest method url contentType body net s).2.1, q.extraHdrs = s.extraHdrs ∧ q.timeout = s.reqTimeout := by
  have hbuilt : ∀ {q : Request}, buildRequest method url contentType body { s with reqTimeout := 0 } = some q →
      q.extraHdrs = s.extraHdrs := by
    intro q hq
    unfold buildRequest at hq
    split at hq
    · cases hq
    split at hq
    · cases hq
    dsimp only at hq
    split at hq
    · cases hq
    split at hq
    · cases hq
    split at hq
    · cases hq
    · cases hq
      rfl
  unfold doRequest
  dsimp only
  split
  · exact ⟨rfl, Nat.zero_le _, fun q hq => by cases hq⟩
  · rename_i q hq
    split
    · exact ⟨rfl, Nat.zero_le _, fun q hq => by cases hq⟩
    split
    · exact ⟨rfl, Nat.zero_le _, fun q hq => by cases hq⟩
    · refine ⟨rfl, Nat.le_refl _, ?_⟩
      intro q' hq'
      have hhdrs := hbuilt hq
      rw [List.mem_singleton.mp hq']
      exact ⟨hhdrs, rfl⟩

/-- The hops after the first request find nothing set. -/
theorem followRedirects_spec (nets : Nat → Net) (n : Nat) (cur : Str) {r : Response × List Request × Settings}
    (hr : r.2.2 = .fresh) :
    (followRedirects nets n cur r).2.2 = .fresh ∧
    ∃ more, (followRedirects nets n cur r).2.1 = r.2.1 ++ more ∧ ∀ q ∈ more, q.extraHdrs = [] ∧ q.timeout = 0 := by
  induction n generalizing cur r with
  | zero => exact ⟨hr, [], (List.append_nil _).symm, fun q hq => by cases hq⟩
  | succ n ih =>
    obtain ⟨r, sent, s⟩ := r
    have hs : s = .fresh := hr
    subst hs
    have hdone : ∃ more, sent = sent ++ more ∧ ∀ q ∈ more, q.extraHdrs = [] ∧ q.timeout = 0 :=
      ⟨[], (List.append_nil _).symm, fun q hq => by cases hq⟩
    unfold followRedirects
    split
    · split
      · exact ⟨rfl, hdone⟩
      · rename_i next _
        obtain ⟨hleft, -, hsent⟩ := doRequest_spec (lit "GET") (some next) none [] (nets (3 - n)) .fresh
        obtain ⟨hfresh, more, hmore, hrest⟩ := ih next (r := ((doRequest (lit "GET") (some next) none [] (nets (3 - n)) .fresh).1,
          sent ++ (doRequest (lit "GET") (some next) none [] (nets (3 - n)) .fresh).2.1,
          (doRequest (lit "GET") (some next) none [] (nets (3 - n)) .fresh).2.2)) hleft
        refine ⟨hfresh, (doRequest (lit "GET") (some next) none [] (nets (3 - n)) .fresh).2.1 ++ more, ?_, ?_⟩
        · rw [hmore, List.append_assoc]
        · intro q hq
          rcases List.mem_append.mp hq with hq | hq
          · exact hsent q hq
          · exact hrest q hq
    · exact ⟨rfl, hdone⟩

/-- A call whose address fits leaves nothing set; its first request takes what was set
    and the others nothing. -/
theorem run_spec (c : Call) (s : Settings) (hc : ∀ url nets, c = .get url nets → url.length < 2048 ∨ s = .fresh) :
    (c.run s).2.2 = .fresh ∧ ∀ (i : Nat) (q : Request), (c.run s).2.1[i]? = some q →
      (q.extraHdrs = s.extraHdrs ∧ q.timeout = s.reqTimeout ∨ q.extraHdrs = [] ∧ q.timeout = 0) ∧
        (i ≠ 0 → q.extraHdrs = []) := by
  have one : ∀ (method : Str) (url contentType : Option Str) (body : Str) (net : Net),
      (doRequest method url contentType body net s).2.2 = .fresh ∧
      ∀ (i : Nat) (q : Request), (doRequest method url contentType body net s).2.1[i]? = some q →
        (q.extraHdrs = s.extraHdrs ∧ q.timeout = s.reqTimeout ∨ q.extraHdrs = [] ∧ q.timeout = 0) ∧
          (i ≠ 0 → q.extraHdrs = []) := by
    intro method url contentType body net
    obtain ⟨hleft, hlen, hsent⟩ := doRequest_spec method url contentType body net s
    refine ⟨hleft, fun i q hq => ⟨Or.inl (hsent q (List.mem_of_getElem? hq)), fun hi => ?_⟩⟩
    have hlt := (List.getElem?_eq_some_iff.mp hq).1
    omega
  cases c with
  | post url contentType body net => exact one _ _ _ _ _
  | postJson url json net => exact one _ _ _ _ _
  | get url nets =>
    unfold Call.run httpGet
    dsimp only
    split
    · rename_i hlong
      rcases hc url nets rfl with hfits | hfresh
      · omega
      · exact ⟨hfresh, fun i q hq => by simp at hq⟩
    · obtain ⟨hleft, hlen, hsent⟩ := doRequest_spec (lit "GET") (some url) none [] (nets 0) s
      obtain ⟨hfresh, more, hmore, hrest⟩ := followRedirects_spec nets 3 url hleft
      refine ⟨hfresh, fun i q hq => ?_⟩
      rw [hmore] at hq
      by_cases hi : i < (doRequest (lit "GET") (some url) none [] (nets 0) s).2.1.length
      · rw [List.getElem?_append_left hi] at hq
        exact ⟨Or.inl (hsent q (List.mem_of_getElem? hq)), fun hne => by omega⟩
      · rw [List.getElem?_append_right (by omega)] at hq
        have hnone := hrest q (List.mem_of_getElem? hq)
        exact ⟨Or.inr hnone, fun _ => hnone.1⟩

/-! ## Runs keep to their own settings -/

/-- What is set was set since the last call returned. -/
structure Since (since : List Setting) (s : Settings) : Prop where
  header : ∀ h ∈ s.extraHdrs, ∃ name value, Setting.header (some name) value ∈ since ∧ h = stored name value
  timeout : s.reqTimeout = 0 ∨ Setting.timeout s.reqTimeout ∈ since

theorem since_fresh (since : List Setting) : Since since .fresh := ⟨fun h hh => (by cases hh), Or.inl rfl⟩

theorem Since.set {since : List Setting} {s : Settings} (h : Since since s) (x : Setting) :
    Since (since ++ [x]) (x.apply s) := by
  have hold : ∀ h ∈ s.extraHdrs, ∃ name value, Setting.header (some name) value ∈ since ++ [x] ∧ h = stored name value := by
    intro hdr hh
    obtain ⟨name, value, hmem, heq⟩ := h.header hdr hh
    exact ⟨name, value, List.mem_append_left _ hmem, heq⟩
  have htime : s.reqTimeout = 0 ∨ Setting.timeout s.reqTimeout ∈ since ++ [x] :=
    h.timeout.imp_right (List.mem_append_left _)
  have hnone : ∀ h ∈ ([] : List (Str × Str)),
      ∃ name value, Setting.header (some name) value ∈ since ++ [x] ∧ h = stored name value :=
    fun h hh => by cases hh
  cases x with
  | timeout seconds =>
    refine ⟨hold, ?_⟩
    unfold Setting.apply httpSetTimeout
    dsimp only
    split
    · exact Or.inr (List.mem_append_right _ List.mem_cons_self)
    · exact Or.inl rfl
  | header name value =>
    unfold Setting.apply httpSetHeader
    dsimp only
    split
    · exact ⟨hnone, htime⟩
    split
    · exact ⟨hnone, htime⟩
    split
    · exact ⟨hold, htime⟩
    · rename_i n _ _
      refine ⟨fun hdr hh => ?_, htime⟩
      rcases List.mem_append.mp hh with hh | hh
      · exact hold hdr hh
      · exact ⟨n, value, List.mem_append_right _ List.mem_cons_self, List.mem_singleton.mp hh⟩

structure Inv (s : St) : Prop where
  settings : Since s.since s.settings
  log : ∀ x ∈ s.log, Own x

theorem step_inv {s s' : St} {e : Ev} (hi : Inv s) (hc : Consumed s e) (hs : step s e = some s') : Inv s' := by
  cases e with
  | set x =>
    cases hs
    exact ⟨hi.settings.set x, hi.log⟩
  | call c =>
    cases hs
    obtain ⟨hleft, hsent⟩ := run_spec c s.settings fun url nets hget => by
      rw [hget] at hc
      exact hc
    refine ⟨?_, ?_⟩
    · dsimp only
      rw [hleft]
      exact since_fresh []
    · intro x hx
      rcases List.mem_append.mp hx with hx | hx
      · exact hi.log x hx
      obtain ⟨i, hi', heq⟩ := List.mem_mapIdx.mp hx
      obtain ⟨hcarries, hfirst⟩ := hsent i _ (List.getElem?_eq_getElem hi')
      subst heq
      refine ⟨fun h hh => ?_, hfirst, ?_⟩
      · rcases hcarries with ⟨hhdrs, -⟩ | ⟨hhdrs, -⟩
        · dsimp only at hh
          rw [hhdrs] at hh
          exact hi.settings.header h hh
        · dsimp only at hh
          rw [hhdrs] at hh
          cases hh
      · rcases hcarries with ⟨-, htime⟩ | ⟨-, htime⟩
        · dsimp only
          rw [htime]
          exact hi.settings.timeout
        · exact Or.inl htime

/-- In every run that passes no address too long for `http_get` while something is set,
    every request that goes out carries the settings of its own call only. -/
theorem requests_own {s : St} (h : thread.Reach Consumed s) : ∀ x ∈ s.log, Own x :=
  (h.invariant (I := Inv) ⟨since_fresh [], fun x hx => by cases hx⟩
    fun _ _ _ hi hc hs => step_inv hi hc hs).log

/-! ## A header for another host -/

/-- The peer takes the request and closes the connection. -/
def closes : Net := ⟨true, true, .answer [] false false⟩

def secret : Ev := .set (.header (some (lit "Authorization")) (some (lit "Bearer key")))

/-- A call with a header, and one with a time of its own. -/
theorem requests_own_get : ∃ s, thread.Reach Consumed s ∧
    s.log.map (fun x => (x.request.extraHdrs, x.request.timeout)) =
      [([(lit "Authorization", lit "Bearer key")], 0), ([], 7)] ∧ ∀ x ∈ s.log, Own x := by
  have hrun : ((thread.replay Consumed thread.init [secret, .call (.get (lit "http://a/") fun _ => closes),
      .set (.timeout 7), .call (.post (some (lit "http://b/")) none [] closes)]).map fun s =>
        s.log.map fun x => (x.request.extraHdrs, x.request.timeout)) =
      some [([(lit "Authorization", lit "Bearer key")], 0), ([], 7)] := by decide +kernel
  obtain ⟨s, hs, hlog⟩ := Option.map_eq_some_iff.mp hrun
  have hreach := System.Reach.init.replay hs
  exact ⟨s, hreach, hlog, requests_own hreach⟩

/-- The header set for an address of 2048 bytes goes out with the next request. -/
def longThenPost : List Ev :=
  [secret, .call (.get (List.replicate 2048 (ch 'a')) fun _ => closes), .call (.post (some (lit "http://b/")) none [] closes)]

theorem header_to_next_host : ¬ ∀ s, thread.Reach (fun _ _ => True) s → ∀ x ∈ s.log, Own x := by
  intro hall
  have hrun : ((thread.replay (fun _ _ => True) thread.init longThenPost).map fun s =>
      s.log.map fun x => (x.request.extraHdrs, x.since.length)) =
      some [([(lit "Authorization", lit "Bearer key")], 0)] := by decide +kernel
  obtain ⟨s, hs, hlog⟩ := Option.map_eq_some_iff.mp hrun
  obtain ⟨x, rest, hcons, hx, -⟩ := List.map_eq_cons_iff.mp hlog
  obtain ⟨hhdrs, hsince⟩ := Prod.mk.inj hx
  have hown := hall s (System.Reach.init.replay hs) x (by rw [hcons]; exact List.mem_cons_self)
  obtain ⟨name, value, hmem, -⟩ := hown.header _ (by rw [hhdrs]; exact List.mem_cons_self)
  rw [List.length_eq_zero_iff.mp hsince] at hmem
  cases hmem

end Shclaw.Http
