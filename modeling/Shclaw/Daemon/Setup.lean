/-
  Shclaw.Daemon.Setup — from the configuration to a daemon that waits for triggers
  (`src/daemon.c`: `load_providers`, `load_tiers`, `daemon_resolve_provider`,
  `generate_irc_secret`, `load_agent`, `load_agents`, `daemon_run` up to its loop,
  `on_irc_trigger`; `src/ini.c`: `ini_get` and its kin).

  What the system gives is a `Boot`: whether the data directory can be written, the
  names `readdir` lists in whatever order, the files, sixteen random bytes.

  `started_ready`: a daemon that starts has a registry of agents (`Messenger.Registry`)
  and knows them by the same names everywhere: its messenger, its mentions, its hub.
  Each agent's key and address come from one section of the configuration, and a message
  of the owner is always queued for an agent, exactly one unless it is for all.
  `started_listing`: the order of the directory does not matter, up to 64 agent files.
  `providers_exact`: providers are the first eight names of their sections, each with
  the values of its first section, if all the names fit their field. A longer name is
  not found again and takes a place for every entry of its section
  (`long_name_fills`).
-/

import Mathlib.Data.List.Sort
import Shclaw.Config.Ini
import Shclaw.Http.Request
import Shclaw.Irc.Parse
import Shclaw.JsonText
import Shclaw.Messenger.Inbox
import Shclaw.Provider.Call

namespace Shclaw.Daemon.Setup

open Lib Config Messenger Irc Provider

/-! ## Values -/

def iniGet (cfg : List IniEntry) (section_ key : Str) : Option Str :=
  (cfg.find? fun e => e.section_ = section_ && e.key = key).map (·.value)

def iniGetInt (cfg : List IniEntry) (section_ key : Str) (dflt : Int) : Int :=
  ((iniGet cfg section_ key).map atoi).getD dflt

def iniGetBool (cfg : List IniEntry) (section_ key : Str) (dflt : Bool) : Bool :=
  ((iniGet cfg section_ key).map fun v =>
    strcaseeq v (lit "true") || v = lit "1" || strcaseeq v (lit "yes") || strcaseeq v (lit "on")).getD dflt

/-! ## Providers -/

/-- The name in `[provider:*]` or `[provider.*]`. -/
def providerSection (section_ : Str) : Option Str :=
  if startsWith section_ (lit "provider:") ∨ startsWith section_ (lit "provider.") then some (section_.drop 9) else none

/-- A provider, its model left empty. -/
def providerOf (cfg : List IniEntry) (section_ pname : Str) : ProviderRef where
  providerName := cut 32 pname
  providerType := cut 16 (if (iniGet cfg section_ (lit "type")).getD pname = lit "anthropic" then lit "anthropic" else lit "openai")
  apiKey := cut 256 ((iniGet cfg section_ (lit "api_key")).getD [])
  baseUrl := cut 256 ((iniGet cfg section_ (lit "base_url")).getD [])
  model := []
  maxTokens := iniGetInt cfg section_ (lit "max_tokens") 0
  timeout := iniGetInt cfg section_ (lit "timeout") 0
  cacheKey := []
  reasoningEffort := cut 16 ((iniGet cfg section_ (lit "reasoning_effort")).getD [])
  key_fits := Nat.lt_succ_of_le (length_cut_le 256 _)
  base_fits := Nat.lt_succ_of_le (length_cut_le 256 _)

def maxProviders : Nat := 8

/-- One entry of the loop of `load_providers`. -/
def loadProvider (cfg : List IniEntry) (ps : List ProviderRef) (e : IniEntry) : List ProviderRef :=
  if maxProviders ≤ ps.length then ps
  else
    match providerSection e.section_ with
    | none => ps
    | some pname =>
      if pname = [] ∨ (ps.any fun p => p.providerName = pname) = true then ps else ps ++ [providerOf cfg e.section_ pname]

def loadProviders (cfg : List IniEntry) : List ProviderRef := cfg.foldl (loadProvider cfg) []

structure Tier where
  tier : Str
  modelRef : Str

def loadTiers (cfg : List IniEntry) : List Tier :=
  ((cfg.filter fun e => e.section_ = lit "tiers").take 8).map fun e => ⟨cut 32 e.key, cut 96 e.value⟩

def daemonResolveProvider (providers : List ProviderRef) (tiers : List Tier) (modelRef : Str) : Option ProviderRef :=
  -- one level, no recursion
  let modelRef := ((tiers.find? fun t => t.tier = modelRef).map (·.modelRef)).getD modelRef
  match strchr modelRef (ch '/') with
  | some rest =>
    (providers.find? fun p => p.providerName = modelRef.take (modelRef.length - rest.length)).map fun p =>
      { p with model := cut 64 (rest.drop 1) }
  | none => (providers.find? fun p => p.apiKey ≠ []).map fun p => { p with model := cut 64 modelRef }

/-! ## Agents -/

/-- What of an `agent_ctx_t` comes from its file. -/
structure Agent where
  name : Str
  provider : ProviderRef
  maxTurns : Int
  historyBudget : Int
  isHub : Bool
  isBuilder : Bool
  specialty : Str
  personality : Str
  systemPromptExtra : Str
  objectives : List Str

/-- What of an `irc_t` comes from the configuration. -/
structure IrcConfig where
  enabled : Bool
  host : Str
  port : Int
  baseNick : Str
  owner : Str
  channel : Str
  channelKey : Str
  hub : Str
  agents : List Str

/-- What of a `daemon_t` is set before its loop. -/
structure Loaded where
  dataDir : Str
  logDir : Str
  chatIdle : Int
  providers : List ProviderRef
  tiers : List Tier
  agents : List Agent
  /-- The messenger's table. -/
  messenger : List Str
  irc : IrcConfig
  /-- What is written to `irc.secret`; whether the write succeeds is not looked at. -/
  secret : Option Str

def maxTurns : Int := 100

def agentOf (cfg : List IniEntry) (name : Str) (p : ProviderRef) : Agent where
  name := cut 32 name
  provider := { p with cacheKey := cut 48 (lit "shclaw-" ++ name) }
  maxTurns := iniGetInt cfg (lit "agent") (lit "max_turns") maxTurns
  historyBudget := iniGetInt cfg (lit "agent") (lit "history_budget") 0
  isHub := iniGetBool cfg (lit "agent") (lit "hub") false
  isBuilder := iniGetBool cfg (lit "agent") (lit "builder") false
  specialty := cut 256 ((iniGet cfg (lit "agent") (lit "specialty")).getD [])
  personality := cut 4096 ((iniGet cfg (lit "agent") (lit "personality")).getD [])
  systemPromptExtra := cut 32768 ((iniGet cfg (lit "agent") (lit "system_prompt_extra")).getD [])
  objectives := ((cfg.filter fun e => e.section_ = lit "objectives").take 16).map fun e => cut 256 e.value

/-- `load_agent`, of a file's bytes if it can be opened. -/
def loadAgent (d : Loaded) (file : Option Str) : Loaded :=
  if maxAgents ≤ d.agents.length then d
  else
    match iniLoad file with
    | none => d
    | some cfg =>
      match iniGet cfg (lit "agent") (lit "name") with
      | none => d
      | some name =>
        if nameOk name = false ∨ (d.agents.any fun a => strcaseeq a.name name) = true then d
        else
          let modelRef := ((iniGet cfg (lit "agent") (lit "tier")).or (iniGet cfg (lit "agent") (lit "model"))).getD (lit "standard")
          match daemonResolveProvider d.providers d.tiers modelRef with
          | none => d
          | some p => { d with agents := d.agents ++ [agentOf cfg name p], messenger := messengerRegister d.messenger name }

def isIni (name : Str) : Bool := 4 < name.length && name.drop (name.length - 4) = lit ".ini"

/-- The agent files in the order they are loaded. -/
def agentFiles (listing : List Str) : List Str := ((listing.filter isIni).take 64).insertionSort (· ≤ ·)

/-- `load_agents`; no listing if `etc/agents` cannot be opened. -/
def loadAgents (d : Loaded) (listing : Option (List Str)) (files : Str → Option Str) : Loaded :=
  (agentFiles (listing.getD [])).foldl (fun d name => loadAgent d (files (lit "etc/agents/" ++ name))) d

/-! ## Starting -/

/-- What the system gives a daemon that starts. -/
structure Boot where
  /-- `access(data_dir, W_OK)`. -/
  writable : Bool
  listing : Option (List Str)
  files : Str → Option Str
  random : Nat → UInt8

def charset : Str := lit "abcdefghijklmnopqrstuvwxyz0123456789"

def hexByte (c : UInt8) : Str := [JsonText.hexDigit (c.toNat / 16), JsonText.hexDigit (c.toNat % 16)]

/-- `generate_irc_secret`: what the configuration does not say is drawn. -/
def generateIrcSecret (random : Nat → UInt8) (irc : IrcConfig) : IrcConfig × Str :=
  let channel := if irc.channel = [] then cut 64 (lit "#tb-" ++ hexByte (random 0) ++ hexByte (random 1) ++ hexByte (random 2))
    else irc.channel
  let key := if irc.channelKey = [] then (List.range 12).map fun i => byte charset ((random (3 + i)).toNat % 36) else irc.channelKey
  ({ irc with channel := channel, channelKey := key },
    cut 512 (lit "channel=" ++ channel ++ lit "\nkey=" ++ key ++ lit "\nhost=" ++ irc.host ++ lit "\nport=" ++
      paddedInt 1 irc.port ++ lit "\nnick=" ++ irc.baseNick ++ lit "\n"))

/-- The agent with `hub = true`, else the first. -/
def hubOf (agents : List Agent) : Option Agent := (agents.find? fun a => a.isHub).or agents.head?

/-- `[irc]`, before the agents are known. -/
def ircConfig (cfg : List IniEntry) : IrcConfig :=
  let host := (iniGet cfg (lit "irc") (lit "host")).or (iniGet cfg (lit "irc") (lit "server"))
  { enabled := host.any (· ≠ [])
    host := cut 256 (host.getD [])
    port := iniGetInt cfg (lit "irc") (lit "port") 6697
    baseNick := cut 32 ((iniGet cfg (lit "irc") (lit "nick")).getD (lit "shclaw"))
    owner := cut 64 ((iniGet cfg (lit "irc") (lit "owner")).getD [])
    channel := cut 64 ((iniGet cfg (lit "irc") (lit "channel")).getD [])
    channelKey := cut 32 ((iniGet cfg (lit "irc") (lit "channel_key")).getD [])
    hub := []
    agents := [] }

/-- The daemon before its agents. -/
def configured (cfg : List IniEntry) : Loaded where
  dataDir := cut 4096 ((iniGet cfg (lit "daemon") (lit "data_dir")).getD (lit "./data"))
  logDir := cut 4096 ((iniGet cfg (lit "daemon") (lit "log_dir")).getD (lit "./logs"))
  chatIdle := iniGetInt cfg (lit "daemon") (lit "conversation_timeout") 15 * 60
  providers := loadProviders cfg
  tiers := loadTiers cfg
  agents := []
  messenger := messengerRegister [] (lit "owner")
  irc := ircConfig cfg
  secret := none

/-- `daemon_run` up to its loop; `none` if it returns 1. -/
def daemonRun (cfg : List IniEntry) (b : Boot) : Option Loaded :=
  if b.writable = false then none
  else
    let d := loadAgents (configured cfg) b.listing b.files
    (hubOf d.agents).map fun hub =>
      let irc := { d.irc with hub := cut 32 hub.name, agents := d.agents.map (·.name) }
      if irc.enabled then
        let (irc, secret) := generateIrcSecret b.random irc
        { d with irc := irc, secret := some secret }
      else { d with irc := irc }

/-- The agents `on_irc_trigger` queues a message for. -/
def recipients (d : Loaded) (agent : Str) : List Agent :=
  d.agents.filter fun a => strcaseeq agent (lit "all") || strcaseeq agent a.name

/-! ## The names of the agents -/

/-- The agents are a registry, and the messenger has its names. -/
structure Known (d : Loaded) (r : Registry) : Prop where
  names : d.agents.map (·.name) = r.names
  table : d.messenger = r.agents

/-- Each agent has one of the providers, with a model and its own cache key. -/
def Keyed (d : Loaded) : Prop :=
  ∀ a ∈ d.agents, ∃ p ∈ d.providers, ∃ model, a.provider = { p with model := model, cacheKey := cut 48 (lit "shclaw-" ++ a.name) }

theorem resolved_spec {ps : List ProviderRef} {ts : List Tier} {modelRef : Str} {q : ProviderRef}
    (h : daemonResolveProvider ps ts modelRef = some q) : ∃ p ∈ ps, ∃ model, q = { p with model := model } := by
  unfold daemonResolveProvider at h
  dsimp only at h
  split at h
  · obtain ⟨p, hp, rfl⟩ := Option.map_eq_some_iff.mp h
    exact ⟨p, List.mem_of_find?_eq_some hp, _, rfl⟩
  · obtain ⟨p, hp, rfl⟩ := Option.map_eq_some_iff.mp h
    exact ⟨p, List.mem_of_find?_eq_some hp, _, rfl⟩

/-- A file changes nothing, or adds an agent with a name that is free. -/
theorem loadAgent_cases (d : Loaded) (file : Option Str) : loadAgent d file = d ∨ ∃ cfg name p,
    d.agents.length < maxAgents ∧ nameOk name = true ∧ (∀ a ∈ d.agents, strcaseeq a.name name = false) ∧
      (∃ q ∈ d.providers, ∃ model, p = { q with model := model }) ∧
      loadAgent d file = { d with agents := d.agents ++ [agentOf cfg name p], messenger := messengerRegister d.messenger name } := by
  unfold loadAgent
  by_cases hfull : maxAgents ≤ d.agents.length
  · exact .inl (if_pos hfull)
  rw [if_neg hfull]
  cases iniLoad file with
  | none => exact .inl rfl
  | some cfg =>
    dsimp only
    cases iniGet cfg (lit "agent") (lit "name") with
    | none => exact .inl rfl
    | some name =>
      dsimp only
      by_cases hbad : nameOk name = false ∨ (d.agents.any fun a => strcaseeq a.name name) = true
      · exact .inl (if_pos hbad)
      rw [if_neg hbad]
      cases hp : daemonResolveProvider d.providers d.tiers (((iniGet cfg (lit "agent") (lit "tier")).or
          (iniGet cfg (lit "agent") (lit "model"))).getD (lit "standard")) with
      | none => exact .inl rfl
      | some p =>
        rw [not_or, Bool.not_eq_false, List.any_eq_true] at hbad
        refine .inr ⟨cfg, name, p, by omega, hbad.1, fun a ha => ?_, resolved_spec hp, rfl⟩
        exact Bool.eq_false_iff.mpr fun heq => hbad.2 ⟨a, ha, heq⟩

theorem loadAgent_known {d : Loaded} {r : Registry} (h : Known d r) (hkeyed : Keyed d) (file : Option Str) :
    (∃ r', Known (loadAgent d file) r') ∧ Keyed (loadAgent d file) ∧ (loadAgent d file).providers = d.providers ∧
      (loadAgent d file).irc = d.irc := by
  rcases loadAgent_cases d file with hsame | ⟨cfg, name, p, hfew, hok, hfree, ⟨q, hq, model, rfl⟩, hload⟩
  · rw [hsame]
    exact ⟨⟨r, h⟩, hkeyed, rfl, rfl⟩
  have hlen : r.names.length < maxAgents := by
    rw [← h.names, List.length_map]
    exact hfew
  have hnew : ∀ a ∈ r.names, strcaseeq a name = false := by
    intro a ha
    rw [← h.names, List.mem_map] at ha
    obtain ⟨b, hb, rfl⟩ := ha
    exact hfree b hb
  have hcut : cut 32 name = name := (cut_eq_self (by decide)).mpr (nameOk_spec hok).2.1
  rw [hload]
  refine ⟨⟨r.loadAgent name true, ?_, ?_⟩, fun a ha => ?_, rfl, rfl⟩
  · unfold Registry.loadAgent
    rw [dif_pos ⟨hlen, hok, hnew, rfl⟩, List.map_append, h.names, List.map_singleton]
    exact congrArg (r.names ++ [·]) hcut
  · show messengerRegister d.messenger name = _
    rw [h.table]
    exact register_loadAgent r hlen hok hnew
  · rcases List.mem_append.mp ha with ha | ha
    · exact hkeyed a ha
    · rw [List.mem_singleton.mp ha]
      refine ⟨q, hq, model, ?_⟩
      show _ = { q with model := model, cacheKey := cut 48 (lit "shclaw-" ++ cut 32 name) }
      rw [hcut]
      rfl

theorem loadAgents_known {d : Loaded} {r : Registry} (h : Known d r) (hkeyed : Keyed d) (names : List (Option Str)) :
    (∃ r', Known (names.foldl loadAgent d) r') ∧ Keyed (names.foldl loadAgent d) ∧
      (names.foldl loadAgent d).providers = d.providers ∧ (names.foldl loadAgent d).irc = d.irc := by
  induction names generalizing d r with
  | nil => exact ⟨⟨r, h⟩, hkeyed, rfl, rfl⟩
  | cons file names ih =>
    obtain ⟨⟨r', hknown⟩, hkeyed', hproviders, hirc⟩ := loadAgent_known h hkeyed file
    obtain ⟨hlast, hkeyed'', hproviders', hirc'⟩ := ih hknown hkeyed'
    exact ⟨hlast, hkeyed'', hproviders'.trans hproviders, hirc'.trans hirc⟩

/-! ## The owner's messages -/

section

variable {agents : List Str} {P : Str → Prop}

theorem scan_names (hP : ∀ word name, namedBy agents word = some name → P (cut 32 name)) (msg : Str) (n p : Nat)
    {marks : List Irc.Mark} (h : ∀ m ∈ marks, P m.name) : ∀ m ∈ scan agents msg n p marks, P m.name := by
  induction n generalizing p marks with
  | zero => exact h
  | succ n ih =>
    unfold scan
    split
    · exact h
    split
    · exact ih _ h
    dsimp only
    cases hword : namedBy agents (firstWord (msg.drop (p + 1))) with
    | none => exact ih _ h
    | some name =>
      refine ih _ fun m hm => ?_
      rcases List.mem_append.mp hm with hm | hm
      · exact h m hm
      · rw [List.mem_singleton.mp hm]
        exact hP _ _ hword

theorem marksOf_names (hP : ∀ word name, namedBy agents word = some name → P (cut 32 name)) (msg : Str) :
    ∀ m ∈ marksOf agents msg, P m.name := by
  unfold marksOf
  dsimp only
  split
  · rename_i name hfirst
    refine scan_names hP msg _ _ fun m hm => ?_
    rw [List.mem_singleton.mp hm]
    split at hfirst
    · exact hP _ _ hfirst
    · cases hfirst
  · exact scan_names hP msg _ _ fun m hm => by cases hm

theorem fillText_names {out : List Mention} (h : ∀ m ∈ out, P m.agent) (done : Nat) (text : Str) :
    ∀ m ∈ fillText done text out, P m.agent := by
  intro m hm
  rcases List.mem_append.mp hm with hm | hm
  · exact h m (List.mem_of_mem_take hm)
  · obtain ⟨m', hm', rfl⟩ := List.mem_map.mp hm
    exact h m' (List.mem_of_mem_drop hm')

theorem segmentsOf_names (msg : Str) (max : Nat) {marks : List Irc.Mark} (hmarks : ∀ m ∈ marks, P m.name) {out : List Mention}
    (h : ∀ m ∈ out, P m.agent) (done : Nat) : ∀ m ∈ segmentsOf msg max marks out done, P m.agent := by
  induction marks generalizing out done with
  | nil => exact fun m hm => h m (List.mem_of_mem_take hm)
  | cons mark rest ih =>
    have hone : ∀ text, ∀ m ∈ out ++ [(⟨mark.name, text⟩ : Mention)], P m.agent := by
      intro text m hm
      rcases List.mem_append.mp hm with hm | hm
      · exact h m hm
      · rw [List.mem_singleton.mp hm]
        exact hmarks mark List.mem_cons_self
    have hrest : ∀ m ∈ rest, P m.name := fun m hm => hmarks m (List.mem_cons_of_mem _ hm)
    unfold segmentsOf
    split
    · exact fun m hm => h m (List.mem_of_mem_take hm)
    dsimp only
    split
    · exact ih hrest (fillText_names (hone _) _ _) _
    · exact ih hrest (hone _) _

/-- A message is for an agent, the hub or all. -/
theorem mentioned (hP : ∀ word name, namedBy agents word = some name → P (cut 32 name)) {hub : Str} (hhub : P (cut 32 hub))
    (hall : P (lit "all")) (max : Nat) (msg : Str) : ∀ m ∈ parseMentions agents hub max msg, P m.agent := by
  have hmarks := marksOf_names hP msg
  unfold parseMentions
  split
  · exact fun m hm => by cases hm
  split
  · intro m hm
    rw [List.mem_singleton.mp hm]
    exact hhub
  · rename_i mark marks heq
    rw [heq] at hmarks
    split
    · intro m hm
      rw [List.mem_singleton.mp hm]
      exact hall
    · refine segmentsOf_names msg max hmarks (fun m hm => ?_) _
      split at hm
      · rw [List.mem_singleton.mp hm]
        exact hhub
      · cases hm

end

/-- One agent has the name. -/
theorem recipients_one {d : Loaded} {r : Registry} (h : Known d r) {name : Str} (hname : name ∈ r.names) :
    (recipients d name).map (·.name) = [name] := by
  have hone : ∀ {names : List Str}, names.Pairwise (fun a b => strcaseeq a b = false) → name ∈ names →
      names.filter (fun a => strcaseeq name a) = [name] := by
    intro names hd hm
    induction names with
    | nil => cases hm
    | cons a names ih =>
      obtain ⟨hfirst, hrest⟩ := List.pairwise_cons.mp hd
      rcases List.mem_cons.mp hm with rfl | hm
      · rw [List.filter_cons_of_pos (by simp), List.filter_eq_nil_iff.mpr fun b hb => by simp [hfirst b hb]]
      · have hother : ¬ strcaseeq name a = true := by
          rw [strcaseeq_comm, hfirst name hm]
          decide
        rw [List.filter_cons_of_neg hother]
        exact ih hrest hm
  have hall := r.all_of_name hname
  have hfilter := hone r.distinct hname
  rw [← h.names, List.filter_map] at hfilter
  unfold recipients
  rw [hall]
  exact hfilter

/-! ## A daemon that starts -/

/-- What is known of a daemon that waits for triggers. -/
structure Ready (cfg : List IniEntry) (d : Loaded) : Prop where
  known : ∃ r, Known d r
  agents : d.irc.agents = d.agents.map (·.name)
  hub : ∃ a, hubOf d.agents = some a ∧ a ∈ d.agents ∧ d.irc.hub = a.name
  /-- The key and the address are those of one section. -/
  keyed : ∀ a ∈ d.agents, ∃ section_ pname, providerSection section_ = some pname ∧
    a.provider.providerName = cut 32 pname ∧
    a.provider.apiKey = cut 256 ((iniGet cfg section_ (lit "api_key")).getD []) ∧
    a.provider.baseUrl = cut 256 ((iniGet cfg section_ (lit "base_url")).getD []) ∧
    a.provider.cacheKey = cut 48 (lit "shclaw-" ++ a.name)
  few : d.providers.length ≤ maxProviders ∧ d.tiers.length ≤ 8 ∧ ∀ a ∈ d.agents, a.objectives.length ≤ 16
  heard : ∀ max msg, ∀ m ∈ parseMentions d.irc.agents d.irc.hub max msg, recipients d m.agent ≠ [] ∧
    (m.agent ≠ lit "all" → (recipients d m.agent).length = 1)
  /-- The channel has a key, and the text for `irc.secret` says which. -/
  secret : d.irc.enabled = true → d.irc.channel ≠ [] ∧ d.irc.channelKey ≠ [] ∧
    ∃ rest, d.secret = some (cut 512 (lit "channel=" ++ d.irc.channel ++ lit "\nkey=" ++ d.irc.channelKey ++ rest))

/-- An entry adds nothing, or the provider of its section. -/
theorem loadProvider_cases (cfg : List IniEntry) (ps : List ProviderRef) (e : IniEntry) : loadProvider cfg ps e = ps ∨
    ∃ pname, ps.length < maxProviders ∧ providerSection e.section_ = some pname ∧ pname ≠ [] ∧
      (∀ p ∈ ps, p.providerName ≠ pname) ∧ loadProvider cfg ps e = ps ++ [providerOf cfg e.section_ pname] := by
  unfold loadProvider
  by_cases hfull : maxProviders ≤ ps.length
  · exact .inl (if_pos hfull)
  rw [if_neg hfull]
  cases hsection : providerSection e.section_ with
  | none => exact .inl rfl
  | some pname =>
    dsimp only
    by_cases hskip : pname = [] ∨ (ps.any fun p => p.providerName = pname) = true
    · exact .inl (if_pos hskip)
    rw [if_neg hskip]
    rw [not_or, List.any_eq_true] at hskip
    exact .inr ⟨pname, by omega, rfl, hskip.1, fun p hp heq => hskip.2 ⟨p, hp, decide_eq_true heq⟩, rfl⟩

theorem loadProviders_spec (cfg : List IniEntry) : (loadProviders cfg).length ≤ maxProviders ∧
    ∀ p ∈ loadProviders cfg, ∃ section_ pname, providerSection section_ = some pname ∧ p = providerOf cfg section_ pname := by
  have hfold : ∀ (es : List IniEntry) (ps : List ProviderRef), ps.length ≤ maxProviders →
      (∀ p ∈ ps, ∃ section_ pname, providerSection section_ = some pname ∧ p = providerOf cfg section_ pname) →
      (es.foldl (loadProvider cfg) ps).length ≤ maxProviders ∧ ∀ p ∈ es.foldl (loadProvider cfg) ps,
        ∃ section_ pname, providerSection section_ = some pname ∧ p = providerOf cfg section_ pname := by
    intro es
    induction es with
    | nil => exact fun ps hlen hof => ⟨hlen, hof⟩
    | cons e es ih =>
      intro ps hlen hof
      rw [List.foldl_cons]
      rcases loadProvider_cases cfg ps e with hsame | ⟨pname, hroom, hsection, -, -, hadd⟩
      · rw [hsame]
        exact ih ps hlen hof
      · rw [hadd]
        refine ih _ ?_ fun p hp => ?_
        · rw [List.length_append, List.length_singleton]
          omega
        · rcases List.mem_append.mp hp with hp | hp
          · exact hof p hp
          · exact ⟨_, _, hsection, List.mem_singleton.mp hp⟩
  exact hfold cfg [] (Nat.zero_le _) fun p hp => by cases hp

theorem loadAgent_few (d : Loaded) (file : Option Str) (h : ∀ a ∈ d.agents, a.objectives.length ≤ 16) :
    (∀ a ∈ (loadAgent d file).agents, a.objectives.length ≤ 16) ∧ (loadAgent d file).tiers = d.tiers := by
  rcases loadAgent_cases d file with hsame | ⟨cfg, name, p, -, -, -, -, hload⟩
  · rw [hsame]
    exact ⟨h, rfl⟩
  · rw [hload]
    refine ⟨fun a ha => ?_, rfl⟩
    rcases List.mem_append.mp ha with ha | ha
    · exact h a ha
    · rw [List.mem_singleton.mp ha]
      unfold agentOf
      dsimp only
      rw [List.length_map]
      exact List.length_take_le _ _

theorem loadAgents_few (names : List (Option Str)) (d : Loaded) (h : ∀ a ∈ d.agents, a.objectives.length ≤ 16) :
    (∀ a ∈ (names.foldl loadAgent d).agents, a.objectives.length ≤ 16) ∧ (names.foldl loadAgent d).tiers = d.tiers := by
  induction names generalizing d with
  | nil => exact ⟨h, rfl⟩
  | cons file names ih =>
    obtain ⟨hfew, htiers⟩ := loadAgent_few d file h
    obtain ⟨hfew', htiers'⟩ := ih _ hfew
    exact ⟨hfew', htiers'.trans htiers⟩

theorem secret_spec (random : Nat → UInt8) (irc : IrcConfig) : (generateIrcSecret random irc).1.channel ≠ [] ∧
    (generateIrcSecret random irc).1.channelKey ≠ [] ∧
    ∃ rest, (generateIrcSecret random irc).2 = cut 512 (lit "channel=" ++ (generateIrcSecret random irc).1.channel ++
      lit "\nkey=" ++ (generateIrcSecret random irc).1.channelKey ++ rest) := by
  unfold generateIrcSecret
  dsimp only
  refine ⟨?_, ?_, _, congrArg (cut 512) (by simp only [List.append_assoc]; rfl)⟩
  · split
    · have hlit : lit "#tb-" = [35, 116, 98, 45] := by decide
      rw [hlit]
      exact List.cons_ne_nil _ _
    · assumption
  · split
    · exact List.cons_ne_nil _ _
    · assumption

theorem hubOf_mem {agents : List Agent} {a : Agent} (h : hubOf agents = some a) : a ∈ agents := by
  rcases Option.or_eq_some_iff.mp h with hfind | ⟨-, hhead⟩
  · exact List.mem_of_find?_eq_some hfind
  · exact List.mem_of_head? hhead

/-- What is known of a daemon whose hub is an agent, but for its keys and its secret. -/
theorem heard_ok {d : Loaded} {r : Registry} (h : Known d r) {a : Agent} (ha : a ∈ d.agents)
    (hagents : d.irc.agents = d.agents.map (·.name)) (hhub : d.irc.hub = a.name) (max : Nat) (msg : Str) :
    ∀ m ∈ parseMentions d.irc.agents d.irc.hub max msg, recipients d m.agent ≠ [] ∧
      (m.agent ≠ lit "all" → (recipients d m.agent).length = 1) := by
  have hcut : ∀ name ∈ r.names, cut 32 name = name := fun name hname => (cut_eq_self (by decide)).mpr (r.length_of_name hname)
  have hmember : a.name ∈ r.names := by
    rw [← h.names]
    exact List.mem_map_of_mem ha
  have hnamed : ∀ m ∈ parseMentions d.irc.agents d.irc.hub max msg, m.agent = lit "all" ∨ m.agent ∈ r.names := by
    refine mentioned (P := fun name => name = lit "all" ∨ name ∈ r.names) (fun word name hword => ?_) ?_ (.inl rfl) max msg
    · unfold namedBy at hword
      split at hword
      · cases hword
        exact .inl (by decide)
      · have hname := List.mem_of_find?_eq_some hword
        rw [hagents, h.names] at hname
        rw [hcut name hname]
        exact .inr hname
    · rw [hhub, hcut _ hmember]
      exact .inr hmember
  intro m hm
  rcases hnamed m hm with hall | hname
  · rw [hall]
    refine ⟨List.ne_nil_of_mem (a := a) (List.mem_filter.mpr ⟨ha, ?_⟩), fun hne => absurd rfl hne⟩
    rw [strcaseeq_refl]
    rfl
  · have hone := congrArg List.length (recipients_one h hname)
    rw [List.length_map, List.length_singleton] at hone
    refine ⟨fun hnil => ?_, fun _ => hone⟩
    rw [hnil] at hone
    cases hone

theorem started_ready (cfg : List IniEntry) (b : Boot) {d : Loaded} (h : daemonRun cfg b = some d) : Ready cfg d := by
  unfold daemonRun at h
  by_cases hwritable : b.writable = false
  · rw [if_pos hwritable] at h
    cases h
  rw [if_neg hwritable] at h
  obtain ⟨hub, hhub, hd⟩ := Option.map_eq_some_iff.mp h
  have hfold : loadAgents (configured cfg) b.listing b.files =
      ((agentFiles (b.listing.getD [])).map fun name => b.files (lit "etc/agents/" ++ name)).foldl loadAgent (configured cfg) := by
    rw [List.foldl_map]
    rfl
  have howner : messengerRegister [] (lit "owner") = [lit "owner"] := by decide
  have hnone : Known (configured cfg) ⟨[], fun _ h => (by cases h), List.Pairwise.nil, Nat.zero_le _⟩ := ⟨rfl, howner⟩
  obtain ⟨⟨r, hknown⟩, hkeyed, hproviders, hirc⟩ := loadAgents_known hnone (fun a ha => by cases ha)
    ((agentFiles (b.listing.getD [])).map fun name => b.files (lit "etc/agents/" ++ name))
  obtain ⟨hfew, htiers⟩ := loadAgents_few ((agentFiles (b.listing.getD [])).map fun name => b.files (lit "etc/agents/" ++ name))
    (configured cfg) (fun a ha => by cases ha)
  rw [← hfold] at hknown hkeyed hproviders hirc hfew htiers
  generalize loadAgents (configured cfg) b.listing b.files = d₀ at *
  obtain ⟨hlen, hof⟩ := loadProviders_spec cfg
  have hhubmem := hubOf_mem hhub
  have hhubname : cut 32 hub.name = hub.name := by
    refine (cut_eq_self (by decide)).mpr (r.length_of_name ?_)
    rw [← hknown.names]
    exact List.mem_map_of_mem hhubmem
  -- what the IRC part of the daemon does not change
  have hrest : ∀ {irc : IrcConfig} {secret : Option Str}, irc.agents = d₀.agents.map (·.name) → irc.hub = hub.name →
      (irc.enabled = true → irc.channel ≠ [] ∧ irc.channelKey ≠ [] ∧
        ∃ rest, secret = some (cut 512 (lit "channel=" ++ irc.channel ++ lit "\nkey=" ++ irc.channelKey ++ rest))) →
      Ready cfg { d₀ with irc := irc, secret := secret } := by
    intro irc secret hagents hname hsecret
    have hknown' : Known { d₀ with irc := irc, secret := secret } r := ⟨hknown.names, hknown.table⟩
    refine ⟨⟨r, hknown'⟩, hagents, ⟨hub, hhub, hhubmem, hname⟩, fun a ha => ?_, ⟨?_, ?_, hfew⟩,
      heard_ok hknown' (a := hub) hhubmem hagents hname, hsecret⟩
    · obtain ⟨p, hp, model, ha⟩ := hkeyed a ha
      rw [hproviders] at hp
      obtain ⟨section_, pname, hsection, rfl⟩ := hof p hp
      exact ⟨section_, pname, hsection, by rw [ha]; rfl, by rw [ha]; rfl, by rw [ha]; rfl, by rw [ha]⟩
    · show d₀.providers.length ≤ _
      rw [hproviders]
      exact hlen
    · show d₀.tiers.length ≤ 8
      rw [htiers]
      unfold configured loadTiers
      dsimp only
      rw [List.length_map]
      exact List.length_take_le _ _
  dsimp only at hd
  split at hd
  · cases hd
    obtain ⟨hchannel, hkey, hsecret⟩ := secret_spec b.random { d₀.irc with hub := cut 32 hub.name, agents := d₀.agents.map (·.name) }
    refine hrest rfl hhubname fun _ => ⟨hchannel, hkey, ?_⟩
    obtain ⟨rest, heq⟩ := hsecret
    exact ⟨rest, congrArg some heq⟩
  · rename_i hdisabled
    cases hd
    exact hrest rfl hhubname fun henabled => absurd henabled hdisabled

/-- One provider with a key, two agents. -/
def oneProvider : List IniEntry := [⟨lit "provider:p", lit "api_key", lit "k"⟩]

def twoAgents : Boot where
  writable := true
  listing := some [lit "b.ini", lit "a.ini"]
  files := fun path => if path = lit "etc/agents/a.ini" then some (lit "[agent]\nname=A\n") else some (lit "[agent]\nname=B\n")
  random := fun _ => 0

theorem started_ready_two : ∃ d, daemonRun oneProvider twoAgents = some d ∧ Ready oneProvider d := by
  obtain ⟨d, hd⟩ := Option.isSome_iff_exists.mp (by decide +kernel : (daemonRun oneProvider twoAgents).isSome = true)
  exact ⟨d, hd, started_ready oneProvider twoAgents hd⟩

/-! ## The order of the directory -/

theorem agentFiles_perm {listing listing' : List Str} (hperm : listing.Perm listing')
    (hfew : (listing.filter isIni).length ≤ 64) : agentFiles listing = agentFiles listing' := by
  have hsame := hperm.filter isIni
  have hfew' : (listing'.filter isIni).length ≤ 64 := hsame.length_eq ▸ hfew
  unfold agentFiles
  rw [List.take_of_length_le hfew, List.take_of_length_le hfew']
  refine List.Perm.eq_of_pairwise' (r := (· ≤ ·)) (List.pairwise_insertionSort _ _) (List.pairwise_insertionSort _ _) ?_
  exact ((List.perm_insertionSort _ _).trans hsame).trans (List.perm_insertionSort _ _).symm

/-- The same files in another order make the same daemon. -/
theorem started_listing (cfg : List IniEntry) (b : Boot) {listing listing' : List Str} (hperm : listing.Perm listing')
    (hfew : (listing.filter isIni).length ≤ 64) :
    daemonRun cfg { b with listing := some listing } = daemonRun cfg { b with listing := some listing' } := by
  have hload : loadAgents (configured cfg) (some listing) b.files = loadAgents (configured cfg) (some listing') b.files := by
    unfold loadAgents
    rw [Option.getD_some, Option.getD_some, agentFiles_perm hperm hfew]
  unfold daemonRun
  dsimp only
  rw [hload]

theorem started_listing_two : daemonRun oneProvider twoAgents =
    daemonRun oneProvider { twoAgents with listing := some [lit "a.ini", lit "b.ini"] } :=
  started_listing oneProvider twoAgents (List.Perm.swap (lit "a.ini") (lit "b.ini") []) (by decide)

/-! ## The providers of a configuration -/

/-- The names of the provider sections, as often as they have entries. -/
def providerNames (cfg : List IniEntry) : List Str := cfg.filterMap fun e => (providerSection e.section_).filter (· ≠ [])

theorem mem_providerNames {cfg : List IniEntry} {pname : Str} :
    pname ∈ providerNames cfg ↔ pname ≠ [] ∧ ∃ e ∈ cfg, providerSection e.section_ = some pname := by
  unfold providerNames
  simp only [List.mem_filterMap, Option.filter_eq_some_iff, decide_eq_true_eq]
  constructor
  · rintro ⟨e, he, hsection, hne⟩
    exact ⟨hne, e, he, hsection⟩
  · rintro ⟨hne, e, he, hsection⟩
    exact ⟨e, he, hsection, hne⟩

/-- The entries `done` have made these providers. -/
structure Taken (cfg done : List IniEntry) (ps : List ProviderRef) : Prop where
  names : ps.map (·.providerName) = (providerNames done).eraseDups.take maxProviders
  values : ∀ p ∈ ps, ∃ e, cfg.find? (fun e => providerSection e.section_ = some p.providerName) = some e ∧
    p = providerOf cfg e.section_ p.providerName

theorem eraseDups_snoc_mem {l : List Str} {a : Str} (h : a ∈ l) : (l ++ [a]).eraseDups = l.eraseDups := by
  rw [List.eraseDups_append]
  have hnil : [a].removeAll l = [] := by
    simp [List.removeAll, h]
  rw [hnil, List.eraseDups_nil, List.append_nil]

theorem eraseDups_snoc_not_mem {l : List Str} {a : Str} (h : a ∉ l) : (l ++ [a]).eraseDups = l.eraseDups ++ [a] := by
  rw [List.eraseDups_append]
  have hone : [a].removeAll l = [a] := by
    simp [List.removeAll, h]
  rw [hone, List.eraseDups_cons, List.filter_nil, List.eraseDups_nil]

theorem taken_step {cfg done : List IniEntry} {ps : List ProviderRef} {e : IniEntry} {rest : List IniEntry}
    (h : Taken cfg done ps) (hcfg : cfg = done ++ e :: rest)
    (hshort : ∀ pname, providerSection e.section_ = some pname → pname.length < 32) :
    Taken cfg (done ++ [e]) (loadProvider cfg ps e) := by
  have hlen : ps.length = min maxProviders (providerNames done).eraseDups.length := by
    rw [← List.length_take, ← h.names, List.length_map]
  have hsnoc : providerNames (done ++ [e]) = providerNames done ++ ((providerSection e.section_).filter (· ≠ [])).toList := by
    unfold providerNames
    rw [List.filterMap_append]
    congr 1
  -- nothing new
  have hsame : (providerNames (done ++ [e])).eraseDups.take maxProviders = (providerNames done).eraseDups.take maxProviders →
      Taken cfg (done ++ [e]) ps := fun heq => ⟨h.names.trans heq.symm, h.values⟩
  unfold loadProvider
  by_cases hfull : maxProviders ≤ ps.length
  · rw [if_pos hfull]
    refine hsame ?_
    rw [hsnoc, List.eraseDups_append, List.take_append_of_le_length (by omega)]
  rw [if_neg hfull]
  cases hsection : providerSection e.section_ with
  | none =>
    refine hsame ?_
    rw [hsnoc, hsection]
    simp
  | some pname =>
    rw [hsection] at hsnoc
    dsimp only
    by_cases hempty : pname = []
    · rw [if_pos (.inl hempty)]
      refine hsame ?_
      rw [hsnoc, hempty, Option.filter_some, if_neg (by decide), Option.toList_none, List.append_nil]
    have hsnoc' : providerNames (done ++ [e]) = providerNames done ++ [pname] := by
      rw [hsnoc, Option.filter_some, if_pos (decide_eq_true hempty)]
      rfl
    have hall : (providerNames done).eraseDups.take maxProviders = (providerNames done).eraseDups :=
      List.take_of_length_le (by omega)
    have hany : (ps.any fun p => decide (p.providerName = pname)) = true ↔ pname ∈ providerNames done := by
      rw [← List.mem_eraseDups, ← hall, ← h.names]
      simp
    by_cases hold : pname ∈ providerNames done
    · rw [if_pos (.inr (hany.mpr hold))]
      refine hsame ?_
      rw [hsnoc', eraseDups_snoc_mem hold]
    · rw [if_neg (not_or.mpr ⟨hempty, fun h => hold (hany.mp h)⟩)]
      have hcut : cut 32 pname = pname := (cut_eq_self (by decide)).mpr (hshort pname hsection)
      refine ⟨?_, fun p hp => ?_⟩
      · rw [hsnoc', eraseDups_snoc_not_mem hold, List.map_append, h.names, hall, List.take_of_length_le]
        · exact congrArg _ (congrArg (fun n => [n]) hcut)
        · rw [List.length_append, List.length_singleton]
          omega
      · rcases List.mem_append.mp hp with hp | hp
        · exact h.values p hp
        · rw [List.mem_singleton.mp hp]
          have hname : (providerOf cfg e.section_ pname).providerName = pname := hcut
          refine ⟨e, ?_, by rw [hname]⟩
          have hfirst : done.find? (fun e => providerSection e.section_ = some pname) = none := by
            rw [List.find?_eq_none]
            intro e' he' heq
            exact hold (mem_providerNames.mpr ⟨hempty, e', he', of_decide_eq_true heq⟩)
          rw [hname, hcfg, List.find?_append, hfirst, Option.none_or]
          exact List.find?_cons_of_pos (decide_eq_true hsection)

/-- The first eight names, each with the values of its first section. -/
theorem providers_exact (cfg : List IniEntry)
    (hshort : ∀ e ∈ cfg, ∀ pname, providerSection e.section_ = some pname → pname.length < 32) :
    (loadProviders cfg).map (·.providerName) = (providerNames cfg).eraseDups.take maxProviders ∧
    ∀ p ∈ loadProviders cfg, ∃ e, cfg.find? (fun e => providerSection e.section_ = some p.providerName) = some e ∧
      p = providerOf cfg e.section_ p.providerName := by
  have hfold : ∀ (rest done : List IniEntry) (ps : List ProviderRef), cfg = done ++ rest → Taken cfg done ps →
      Taken cfg cfg (rest.foldl (loadProvider cfg) ps) := by
    intro rest
    induction rest with
    | nil =>
      intro done ps hcfg h
      rw [List.append_nil] at hcfg
      exact hcfg ▸ h
    | cons e rest ih =>
      intro done ps hcfg h
      have he : e ∈ cfg := hcfg ▸ List.mem_append_right _ List.mem_cons_self
      refine ih (done ++ [e]) _ ?_ (taken_step h hcfg (hshort e he))
      rw [hcfg, List.append_assoc]
      rfl
  have htaken := hfold cfg [] [] rfl ⟨rfl, fun p hp => by cases hp⟩
  exact ⟨htaken.names, htaken.values⟩

/-- Two providers, the first in both spellings. -/
def twoProviders : List IniEntry :=
  [⟨lit "provider:p", lit "api_key", lit "k"⟩, ⟨lit "provider.p", lit "api_key", lit "other"⟩,
    ⟨lit "provider:q", lit "base_url", lit "http://h"⟩]

/-- The key is the one of the first spelling. -/
theorem providers_exact_spellings : (loadProviders twoProviders).map (·.providerName) = [lit "p", lit "q"] ∧
    ∀ p ∈ loadProviders twoProviders, p.providerName = lit "p" → p.apiKey = lit "k" := by
  obtain ⟨hnames, hvalues⟩ := providers_exact twoProviders fun e he pname hsection => by
    have hpname : providerSection e.section_ = some (lit "p") ∨ providerSection e.section_ = some (lit "q") := by
      rcases List.mem_cons.mp he with rfl | he
      · exact .inl (by decide)
      rcases List.mem_cons.mp he with rfl | he
      · exact .inl (by decide)
      · exact .inr (by rw [List.mem_singleton.mp he]; decide)
    rcases hpname with h | h
    · rw [Option.some.inj (hsection.symm.trans h)]
      decide
    · rw [Option.some.inj (hsection.symm.trans h)]
      decide
  refine ⟨hnames.trans (by decide), fun p hp hname => ?_⟩
  obtain ⟨e, he, hvalue⟩ := hvalues p hp
  rw [hname] at he hvalue
  have hfirst : twoProviders.find? (fun e => providerSection e.section_ = some (lit "p")) =
      some ⟨lit "provider:p", lit "api_key", lit "k"⟩ := by decide
  rw [← Option.some.inj (hfirst.symm.trans he)] at hvalue
  rw [hvalue]
  decide

/-- The entries of a section whose name does not fit. -/
theorem long_name_fills (cfg : List IniEntry) {section_ pname : Str} (hsection : providerSection section_ = some pname)
    (hlong : 32 ≤ pname.length) (hall : ∀ e ∈ cfg, e.section_ = section_) :
    (loadProviders cfg).length = min cfg.length maxProviders := by
  have hcut : cut 32 pname ≠ pname := by
    intro heq
    have hfits := (cut_eq_self (by decide)).mp heq
    omega
  have hne : pname ≠ [] := by
    rintro rfl
    cases hlong
  have hfold : ∀ (rest : List IniEntry) (ps : List ProviderRef), (∀ e ∈ rest, e.section_ = section_) →
      (∀ p ∈ ps, p.providerName = cut 32 pname) → ps.length ≤ maxProviders →
      (rest.foldl (loadProvider cfg) ps).length = min (ps.length + rest.length) maxProviders := by
    intro rest
    induction rest with
    | nil =>
      intro ps _ _ hlen
      rw [List.foldl_nil, List.length_nil]
      omega
    | cons e rest ih =>
      intro ps hrest hps hlen
      rw [List.foldl_cons, List.length_cons]
      have he := hrest e List.mem_cons_self
      rcases loadProvider_cases cfg ps e with hsame | ⟨pname', hroom, hsection', -, -, hadd⟩
      · have hfull : maxProviders ≤ ps.length := by
          by_contra hroom
          unfold loadProvider at hsame
          rw [if_neg hroom, he, hsection] at hsame
          dsimp only at hsame
          rw [if_neg] at hsame
          · exact absurd hsame (by simp)
          · rw [not_or, List.any_eq_true]
            refine ⟨hne, ?_⟩
            rintro ⟨p, hp, heq⟩
            exact hcut ((hps p hp).symm.trans (of_decide_eq_true heq))
        rw [hsame, ih ps (fun e' he' => hrest e' (List.mem_cons_of_mem _ he')) hps hlen]
        omega
      · have hsame : pname' = pname := Option.some.inj (hsection'.symm.trans (he ▸ hsection))
        rw [hadd, ih _ (fun e' he' => hrest e' (List.mem_cons_of_mem _ he')) (fun p hp => ?_) (by
          rw [List.length_append, List.length_singleton]
          omega)]
        · rw [List.length_append, List.length_singleton]
          omega
        · rcases List.mem_append.mp hp with hp | hp
          · exact hps p hp
          · rw [List.mem_singleton.mp hp, hsame]
            rfl
  have hrun := hfold cfg [] hall (fun p hp => by cases hp) (Nat.zero_le _)
  rw [List.length_nil, Nat.zero_add] at hrun
  exact hrun

end Shclaw.Daemon.Setup
