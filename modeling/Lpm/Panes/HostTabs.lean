/-
The tabs of a peer project and the Mac that hosts them: `followHostTabs` and `withoutHostTabs`
of `hostTabs.ts`.

A tab of the tree is the object it was before unless `withHostNames` or `withHostSession` made
a new one, and then the new one differs (`withHostNames_eq_self`, `withHostSession_eq_self`);
tabs of different places have different ids. So `===` between tabs is equality here.
-/
import Lpm.Lib.RustText
import Lpm.Lib.SortedList
import Lpm.Lib.Writes
import Lpm.Panes.Editing

set_option autoImplicit false

namespace Lpm.Panes

open List Option Function

open RustText StableSort Writes

/-! ## Agent sessions -/

variable (c : Char)

/-- A blank of a regular expression. -/
def is_blank : Bool :=
  c ∈ ['\t', '\n', '\x0b', '\x0c', '\r', ' ', '\u00a0', '\u1680', '\u2028', '\u2029', '\u202f', '\u205f', '\u3000', '\ufeff']
    || ('\u2000' ≤ c && c ≤ '\u200a')

def is_letter : Bool := ('a' ≤ c && c ≤ 'z') || ('A' ≤ c && c ≤ 'Z')

def is_digit : Bool := '0' ≤ c && c ≤ '9'

/-- `ENV_ASSIGNMENT`. -/
def isEnvAssignment : List Char → Bool
  | [] => false
  | c :: rest =>
    (is_letter c || c = '_') && (rest.dropWhile fun c => is_letter c || is_digit c || c = '_').head? = some '='

/-- `SESSION_ID`. -/
def isValidAgentSessionId (sessionId : List Char) : Bool :=
  1 ≤ sessionId.length && sessionId.length ≤ 128
    && sessionId.all fun c => is_letter c || is_digit c || c = '_' || c = '-'

/-- The marker in front of a path on a Windows host. -/
def hasWindowsRootMarker (value : List Char) : Bool :=
  ((behind "/@peer-".toList value).bind behind_slug).any winHostPath

variable (p : List Char)

def windowsRules (win : Bool) : Bool :=
  (win && p.head? ≠ some '/') || hasWindowsRootMarker p

def basename (win : Bool) : List Char :=
  ((if windowsRules p win then p.splitOnP fun c => c = '/' || c = '\\' else p.splitOn '/').getLast?).getD p

/-- `WIN_PROGRAM_EXT_RE`, taken off. -/
def withoutProgramExt : List Char :=
  if (p.drop (p.length - 4)).map Char.toLower ∈ [".exe".toList, ".cmd".toList, ".bat".toList]
  then p.take (p.length - 4) else p

/-- The program a command token runs (`/usr/local/bin/claude`, `claude.exe`). -/
def commandName (token : List Char) (win : Bool) : List Char :=
  if win then withoutProgramExt (basename token true) else ((token.splitOn '/').getLast?).getD []

structure ParsedAgentCommand where
  tokens : List (List Char)
  programIdx : ℕ
  program : List Char

variable (win : Bool) (command : Option String)

/-- The words of a command. Leading assignments are part of it, so the program is the first
word that isn't one. -/
def parseAgentCommand : Option ParsedAgentCommand :=
  let tokens := ((command.getD "").toList.splitOnP is_blank).filter fun token => token ≠ []
  (tokens.findIdx? fun token => !isEnvAssignment token).map fun programIdx =>
    ⟨tokens, programIdx, commandName (tokens.getD programIdx []) win⟩

def agentProviderOfCommand : Option AgentSessionProvider :=
  (parseAgentCommand win command).bind fun parsed =>
    if parsed.program = "claude".toList then some .claude
    else if parsed.program = "codex".toList then some .codex else none

def validRef (provider : AgentSessionProvider) (sessionId : Option (List Char)) : Option AgentSessionRef :=
  (sessionId.filter isValidAgentSessionId).map fun sessionId => ⟨provider, String.ofList sessionId⟩

/-- The place of `--resume` behind the program. -/
def resumeFlagIdx (parsed : ParsedAgentCommand) : Option ℕ :=
  ((parsed.tokens.drop (parsed.programIdx + 1)).idxOf? "--resume".toList).map (· + (parsed.programIdx + 1))

def agentSessionRefOf (resumeCmd : Option String) : Option AgentSessionRef :=
  (parseAgentCommand win resumeCmd).bind fun parsed =>
    let next := parsed.tokens[parsed.programIdx + 1]?
    if parsed.program = "codex".toList ∧ next = some "resume".toList then
      validRef .codex parsed.tokens[parsed.programIdx + 2]?
    else if parsed.program ≠ "claude".toList then none
    else
      match resumeFlagIdx parsed with
      | some idx => validRef .claude parsed.tokens[idx + 1]?
      | none => if next = some "resume".toList then validRef .claude parsed.tokens[parsed.programIdx + 2]? else none

/-- Which agent conversation a tab belongs to. -/
def agentSessionOf (tab : TerminalInstance) : Option AgentSessionRef :=
  tab.agentSession.or (agentSessionRefOf win tab.resumeCmd)

def join_words (words : List (List Char)) : String := String.ofList (" ".toList.intercalate words)

def buildClaudeResumeCmd (currentCmd : Option String) (sessionId : String) : String :=
  match parseAgentCommand win currentCmd with
  | none => "claude --resume " ++ sessionId
  | some parsed =>
    if parsed.program ≠ "claude".toList then "claude --resume " ++ sessionId
    else
      match (resumeFlagIdx parsed).filter fun idx => idx + 1 < parsed.tokens.length with
      | some idx => join_words (parsed.tokens.set (idx + 1) sessionId.toList)
      | none =>
        if parsed.tokens[parsed.programIdx + 1]? = some "resume".toList ∧ parsed.programIdx + 2 < parsed.tokens.length then
          join_words (parsed.tokens.set (parsed.programIdx + 2) sessionId.toList)
        else join_words (parsed.tokens.take (parsed.programIdx + 1) ++ ["--resume".toList, sessionId.toList])

def buildCodexResumeCmd (startCmd : Option String) (sessionId : String) : String :=
  let tokens := ((startCmd.getD "").toList.splitOnP is_blank).filter fun token => token ≠ []
  let env := tokens.takeWhile isEnvAssignment
  let prog := ((tokens.dropWhile isEnvAssignment).head?).getD "codex".toList
  join_words (env ++ [prog, "resume".toList, sessionId.toList])

variable (t : TerminalInstance)

def followsAgentTitle : Bool := t.sessionTitleSource ≠ some .manual

def terminalDisplayLabel : String :=
  if !followsAgentTitle t then t.label
  else
    match truthy t.sessionTitle with
    | none => t.label
    | some title => if t.forkOf.isSome then title ++ " · fork" else title

/-- The tab once its agent has said which conversation it runs. -/
def withAgentSession (tab : TerminalInstance) (session : AgentSessionRef) : TerminalInstance :=
  let changedSession : Bool := agentSessionOf win tab ≠ some session
  let resumeCmd :=
    match session.provider with
    | .claude => buildClaudeResumeCmd win (tab.resumeCmd.or tab.startCmd) session.sessionId
    | .codex =>
      buildCodexResumeCmd (if agentProviderOfCommand win tab.startCmd = some .codex then tab.startCmd else none)
        session.sessionId
  let tab' := { tab with agentSession := some session, resumeCmd := some resumeCmd, agentEnded := false }
  if changedSession && followsAgentTitle tab then
    { tab' with sessionTitle := none, sessionTitleId := none, sessionTitleSource := none }
  else tab'

/-! ## What the host lists -/

/-- A terminal running on a peer host. What `parseHostTerminal` makes never has an empty name
or icon. -/
structure HostTerminal where
  id : String
  label : Option String
  pinned : Bool
  emoji : Option String
  agentSession : Option AgentSessionRef
  label_ne : label ≠ some ""
  emoji_ne : emoji ≠ some ""

/-! ## Following the host -/

/-- The host's name wins over any this Mac would give the tab. -/
def withHostNames (host : HostTerminal) : TerminalInstance :=
  let renamed := (truthy host.label).isSome && some (terminalDisplayLabel t) ≠ host.label
  let repinned : Bool := t.pinned ≠ host.pinned
  let reiconed : Bool := truthy t.emoji ≠ host.emoji
  if !renamed && !repinned && !reiconed then t
  else
    let next := { t with emoji := host.emoji, pinned := host.pinned }
    if !renamed then next
    else
      { next with
        label := host.label.getD ""
        sessionTitle := none
        sessionTitleId := none
        sessionTitleSource := some .manual }

/-- A tab that never heard its agent name the conversation takes the one the host knows. -/
def withHostSession (host : HostTerminal) : TerminalInstance :=
  match host.agentSession, agentSessionOf win t with
  | some session, none => withAgentSession win t session
  | _, _ => t

variable (terminals : List HostTerminal) (order : List String)

/-- The host's order: the tabs of `order`, then the terminals that it leaves out. Of an id that
stands in `order` twice the map keeps the last place. -/
def rank (id : String) : Option ℕ :=
  match order.reverse.idxOf? id with
  | some i => some (order.length - 1 - i)
  | none => ((terminals.map HostTerminal.id).idxOf? id).map (order.length + ·)

/-- The last of the terminals with an id. -/
def byId (id : String) : Option HostTerminal :=
  terminals.reverse.find? fun t => t.id = id

variable (tabs : List TerminalInstance)

/-- The tab at a place that may be none. -/
def tabAt (idx : ℤ) : Option TerminalInstance :=
  if 0 ≤ idx then tabs[idx.toNat]? else none

def named_tab (t : TerminalInstance) : TerminalInstance :=
  match byId terminals t.id with
  | some host => withHostSession win (withHostNames t host) host
  | none => t

/-- The tabs of a pane in the host's order, with its names. -/
def named_tabs :
    List TerminalInstance :=
  let listed := fun t : TerminalInstance => (rank terminals order t.id).isSome
  let places := slots listed tabs
  let ranked := sortBy (fun t : TerminalInstance => (rank terminals order t.id).getD 0)
    (places.filterMap fun i => tabs[i]?)
  let ordered := (places.zip ranked).foldl (fun tabs w => tabs.set w.1 w.2) tabs
  ordered.map (named_tab win terminals)

def follow_pane (next : PaneNode) (pane : PaneLeaf) :
    PaneNode :=
  let named := named_tabs win terminals order pane.tabs
  if named = pane.tabs then next
  else
    let activeId := (tabAt pane.tabs pane.activeTabIdx).map TerminalInstance.id
    let activeTabIdx := named.findIdx? fun t => some t.id = activeId
    mapPane next pane.id fun p =>
      { p with tabs := named, activeTabIdx := (activeTabIdx.map fun idx : ℕ => (idx : ℤ)).getD p.activeTabIdx }

/-- Brings the host's tabs here in line with the host. -/
def followHostTabs (tree : PaneNode) (terminals : List HostTerminal) (order : List String) : PaneNode :=
  (collectPanes tree).foldl (follow_pane win terminals order) tree

/-! ## Without the tabs the host closed -/

def drop_pane (ids : List String) (next : Option PaneNode) (pane : PaneLeaf) : Option PaneNode :=
  match next with
  | none => none
  | some next =>
    if ¬ ∃ t ∈ pane.tabs, t.id ∈ ids then some next
    else
      let tabs := pane.tabs.filter fun t => t.id ∉ ids
      if tabs = [] ∧ truthy pane.activeServiceName = none then removePane next pane.id
      else
        let kept := (tabAt pane.tabs pane.activeTabIdx).bind fun active => tabs.idxOf? active
        let activeTabIdx := (kept.map fun idx : ℕ => (idx : ℤ)).getD (clampIdx (some pane.activeTabIdx) tabs.length)
        some (mapPane next pane.id fun p => { p with tabs, activeTabIdx })

/-- What is left of the tree, and where focus goes when its pane went. -/
def withoutHostTabs (tree : PaneNode) (focusedPaneId : Option String) (ids : List String) :
    Option PaneNode × Option (Option String) :=
  let next := (collectPanes tree).foldl (drop_pane ids) (some tree)
  match truthy focusedPaneId with
  | none => (next, none)
  | some focused =>
    if (next.bind fun next => findPane next focused).isSome then (next, none)
    else (next, some (next.map firstPaneId))

/-! ## One tab -/

section
variable {win : Bool} {t : TerminalInstance} {host : HostTerminal} {session : AgentSessionRef}

theorem truthy_of_ne {s : Option String} (h : s ≠ some "") : truthy s = s := by
  cases s with
  | none => rfl
  | some s =>
    have hne : s ≠ "" := fun heq => h (congrArg some heq)
    simp [truthy, Option.filter, hne]

theorem truthy_emoji (host : HostTerminal) : truthy host.emoji = host.emoji := truthy_of_ne host.emoji_ne

theorem truthy_label (host : HostTerminal) : truthy host.label = host.label := truthy_of_ne host.label_ne

/-- What a tab has when it has the host's name, pin and icon. -/
structure Named (t : TerminalInstance) (host : HostTerminal) : Prop where
  label : host.label = none ∨ host.label = some (terminalDisplayLabel t)
  pinned : t.pinned = host.pinned
  emoji : truthy t.emoji = host.emoji

theorem withHostNames_of_named (h : Named t host) : withHostNames t host = t := by
  unfold withHostNames
  rw [truthy_label]
  rcases h.label with hlabel | hlabel
  · simp [hlabel, h.pinned, h.emoji]
  · simp [hlabel, h.pinned, h.emoji]

/-- The tab that takes the host's names has them. -/
theorem named_withHostNames (t : TerminalInstance) (host : HostTerminal) : Named (withHostNames t host) host := by
  by_cases hnamed : Named t host
  · rw [withHostNames_of_named hnamed]
    exact hnamed
  · unfold withHostNames
    dsimp only
    rw [truthy_label]
    split_ifs with hsame hlabel
    -- then nothing differed
    · refine absurd ⟨?_, ?_, ?_⟩ hnamed
      · rcases hhost : host.label with _ | label
        · exact .inl rfl
        · simp [hhost] at hsame
          exact .inr (congrArg some hsame.1.1.symm)
      · simp at hsame
        exact hsame.1.2
      · simp at hsame
        exact hsame.2
    · refine ⟨?_, rfl, truthy_emoji host⟩
      rcases hhost : host.label with _ | label
      · exact .inl rfl
      · simp [hhost] at hlabel
        exact .inr (congrArg some hlabel.symm)
    · refine ⟨?_, rfl, truthy_emoji host⟩
      rcases hhost : host.label with _ | label
      · exact .inl rfl
      · exact .inr rfl

/-- A tab that is made anew for the host's names is another. -/
theorem withHostNames_eq_self : withHostNames t host = t ↔ Named t host := by
  constructor
  · intro h
    rw [← h]
    exact named_withHostNames t host
  · exact withHostNames_of_named

@[simp] theorem withHostNames_agent (t : TerminalInstance) (host : HostTerminal) :
    (withHostNames t host).id = t.id ∧ (withHostNames t host).agentSession = t.agentSession
      ∧ (withHostNames t host).resumeCmd = t.resumeCmd := by
  unfold withHostNames
  dsimp only
  split_ifs
  · exact ⟨rfl, rfl, rfl⟩
  · exact ⟨rfl, rfl, rfl⟩
  · exact ⟨rfl, rfl, rfl⟩

theorem agentSessionOf_withHostNames (win : Bool) (t : TerminalInstance) (host : HostTerminal) :
    agentSessionOf win (withHostNames t host) = agentSessionOf win t := by
  obtain ⟨-, hsession, hresume⟩ := withHostNames_agent t host
  rw [agentSessionOf, agentSessionOf, hsession, hresume]

/-- The own label of a tab that took the host's names. -/
theorem withHostNames_label (t : TerminalInstance) (host : HostTerminal) :
    (withHostNames t host).label
      = if host.label = none ∨ host.label = some (terminalDisplayLabel t) then t.label else host.label.getD "" := by
  unfold withHostNames
  dsimp only
  rw [truthy_label]
  rcases hhost : host.label with _ | label
  · simp
    split_ifs
    · rfl
    · rfl
  · by_cases hsame : terminalDisplayLabel t = label
    · simp [hsame]
      split_ifs
      · rfl
      · rfl
    · have hne : ¬ label = terminalDisplayLabel t := fun h => hsame h.symm
      simp [hsame, hne]

theorem withHostSession_of_some (h : (agentSessionOf win t).isSome) : withHostSession win t host = t := by
  obtain ⟨session, hsession⟩ := isSome_iff_exists.mp h
  unfold withHostSession
  rw [hsession]
  split
  next heq =>
    exact nomatch heq
  · rfl

theorem withHostSession_of_none (h : host.agentSession = none) : withHostSession win t host = t := by
  unfold withHostSession
  rw [h]

theorem withHostSession_takes (h : host.agentSession = some session) (hnone : agentSessionOf win t = none) :
    withHostSession win t host = withAgentSession win t session := by
  unfold withHostSession
  rw [h, hnone]

theorem withAgentSession_keeps (win : Bool) (t : TerminalInstance) (session : AgentSessionRef) :
    (withAgentSession win t session).id = t.id ∧ (withAgentSession win t session).label = t.label
      ∧ (withAgentSession win t session).pinned = t.pinned ∧ (withAgentSession win t session).emoji = t.emoji
      ∧ (withAgentSession win t session).agentSession = some session := by
  unfold withAgentSession
  dsimp only
  by_cases hchanged : (decide (agentSessionOf win t ≠ some session) && followsAgentTitle t) = true
  · rw [if_pos hchanged]
    exact ⟨rfl, rfl, rfl, rfl, rfl⟩
  · rw [if_neg hchanged]
    exact ⟨rfl, rfl, rfl, rfl, rfl⟩

/-- A tab made anew for the host's conversation is another. -/
theorem withHostSession_eq_self :
    withHostSession win t host = t ↔ ¬ (host.agentSession.isSome ∧ agentSessionOf win t = none) := by
  rcases hhost : host.agentSession with _ | session
  · rw [withHostSession_of_none hhost]
    simp
  · rcases hown : agentSessionOf win t with _ | own
    · rw [withHostSession_takes hhost hown]
      have hsome := (withAgentSession_keeps win t session).2.2.2.2
      have hnone : t.agentSession = none := (or_eq_none_iff.mp hown).1
      constructor
      · intro h
        rw [h, hnone] at hsome
        exact nomatch hsome
      · intro h
        exact absurd ⟨rfl, rfl⟩ h
    · rw [withHostSession_of_some (by rw [hown]; rfl)]
      simp

/-- Taking a first conversation, a tab goes back to its own label. -/
theorem terminalDisplayLabel_withAgentSession (h : agentSessionOf win t = none) (session : AgentSessionRef) :
    terminalDisplayLabel (withAgentSession win t session) = t.label := by
  have hchanged : agentSessionOf win t ≠ some session := by
    rw [h]
    exact nofun
  unfold withAgentSession
  dsimp only
  by_cases hfollows : followsAgentTitle t = true
  · rw [if_pos (by simp [hchanged, hfollows])]
    rfl
  · rw [if_neg (by simp [hfollows]), terminalDisplayLabel]
    have hmanual : followsAgentTitle t = false := Bool.eq_false_iff.mpr hfollows
    exact if_pos (congrArg not hmanual)

/-- The tab shows the host's name as the title of a conversation that it has not heard of, and
the host knows the conversation. -/
def loses_name (win : Bool) (t : TerminalInstance) (host : HostTerminal) : Prop :=
  host.agentSession.isSome ∧ agentSessionOf win t = none ∧ host.label = some (terminalDisplayLabel t)
    ∧ t.label ≠ terminalDisplayLabel t

def follow_tab (win : Bool) (host : HostTerminal) (t : TerminalInstance) : TerminalInstance :=
  withHostSession win (withHostNames t host) host

/-- Following the host again leaves a tab as it is, unless it lost the name it had. -/
theorem follow_tab_again (win : Bool) (t : TerminalInstance) (host : HostTerminal) :
    follow_tab win host (follow_tab win host t) = follow_tab win host t ↔ ¬ loses_name win t host := by
  have hnamed := named_withHostNames t host
  have hagent := agentSessionOf_withHostNames win t host
  by_cases htakes : host.agentSession.isSome ∧ agentSessionOf win t = none
  · obtain ⟨hhost, hown⟩ := htakes
    obtain ⟨session, hsession⟩ := isSome_iff_exists.mp hhost
    rw [← hagent] at hown
    obtain ⟨-, hlabel, hpinned, hemoji, hsome⟩ := withAgentSession_keeps win (withHostNames t host) session
    have hfirst : follow_tab win host t = withAgentSession win (withHostNames t host) session :=
      withHostSession_takes hsession hown
    have hdisplay := terminalDisplayLabel_withAgentSession hown session
    -- the second time the conversation is there, so only the name can differ
    have hagain : follow_tab win host (follow_tab win host t) = withHostNames (follow_tab win host t) host := by
      refine withHostSession_of_some ?_
      rw [agentSessionOf_withHostNames, hfirst, agentSessionOf, hsome]
      rfl
    rw [hagain, withHostNames_eq_self, hfirst]
    have hiff : Named (withAgentSession win (withHostNames t host) session) host
        ↔ host.label = none ∨ host.label = some (withHostNames t host).label := by
      constructor
      · intro h
        rw [← hdisplay]
        exact h.label
      · intro h
        exact ⟨by rw [hdisplay]; exact h, hpinned.trans hnamed.pinned, by rw [hemoji]; exact hnamed.emoji⟩
    rw [hiff, withHostNames_label, loses_name, ← hagent]
    rcases hhostlabel : host.label with _ | label
    · simp
    · by_cases hsame : label = terminalDisplayLabel t
      · simp [hsame, hhost, hown, eq_comm]
      · simp [hsame]
  · have hkeeps : withHostSession win (withHostNames t host) host = withHostNames t host := by
      rw [withHostSession_eq_self, hagent]
      exact htakes
    have hfirst : follow_tab win host t = withHostNames t host := hkeeps
    constructor
    · rintro - ⟨hhost, hown, -⟩
      exact htakes ⟨hhost, hown⟩
    · intro _
      rw [hfirst, follow_tab, withHostNames_of_named hnamed, hkeeps]

theorem follow_tab_id (win : Bool) (host : HostTerminal) (t : TerminalInstance) : (follow_tab win host t).id = t.id := by
  rw [follow_tab, withHostSession]
  split
  · rw [(withAgentSession_keeps _ _ _).1, (withHostNames_agent t host).1]
  · exact (withHostNames_agent t host).1

end

/-! ## One pane -/

/-- The tabs that the host orders, in its order. -/
def host_order (terminals : List HostTerminal) (order : List String) : List String :=
  order ++ terminals.map HostTerminal.id

/-- What following the host leaves of a pane. -/
structure Followed (terminals : List HostTerminal) (order : List String) (p p' : PaneLeaf) : Prop where
  id : p'.id = p.id
  service : p'.activeServiceName = p.activeServiceName
  same_tabs : (p'.tabs.map TerminalInstance.id).Perm (p.tabs.map TerminalInstance.id)
  active : ∀ t, tabAt p.tabs p.activeTabIdx = some t → ∃ t', tabAt p'.tabs p'.activeTabIdx = some t' ∧ t'.id = t.id
  unlisted : ∀ (i : ℕ) t, p.tabs[i]? = some t → t.id ∉ host_order terminals order → p'.tabs[i]? = some t
  ordered : ((p'.tabs.map TerminalInstance.id).filter fun id => id ∈ host_order terminals order).Pairwise
    fun a b => (host_order terminals order).idxOf a < (host_order terminals order).idxOf b

/-- What taking out tabs leaves of a pane. -/
structure Dropped (ids : List String) (p p' : PaneLeaf) : Prop where
  id : p'.id = p.id
  service : p'.activeServiceName = p.activeServiceName
  tabs : p'.tabs = p.tabs.filter fun t => t.id ∉ ids
  active : ∀ t, tabAt p.tabs p.activeTabIdx = some t → t.id ∉ ids → tabAt p'.tabs p'.activeTabIdx = some t

/-- A pane whose tabs are all taken out, and that shows no service. -/
def Collapses (ids : List String) (p : PaneLeaf) : Prop :=
  (∃ t ∈ p.tabs, t.id ∈ ids) ∧ (∀ t ∈ p.tabs, t.id ∈ ids) ∧ truthy p.activeServiceName = none

instance (ids : List String) (p : PaneLeaf) : Decidable (Collapses ids p) :=
  inferInstanceAs (Decidable (_ ∧ _ ∧ _))

section
variable {win : Bool} {terminals : List HostTerminal} {order : List String} {tabs : List TerminalInstance} {p : PaneLeaf}
  {t : TerminalInstance} {ids : List String}

def listed (terminals : List HostTerminal) (order : List String) (t : TerminalInstance) : Bool :=
  (rank terminals order t.id).isSome

/-- Where nothing stands twice, the rank is the place in the host's order. -/
theorem rank_eq (h : order.Nodup) (terminals : List HostTerminal) (id : String) :
    rank terminals order id
      = if id ∈ host_order terminals order then some ((host_order terminals order).idxOf id) else none := by
  rw [rank, host_order]
  by_cases hmem : id ∈ order
  · have hlt : order.idxOf id < order.length := idxOf_lt_length_of_mem hmem
    -- the order is searched from behind, which finds the one place there is
    have hplace : order.reverse.idxOf? id = some (order.length - 1 - order.idxOf id) := by
      rw [idxOf?_eq_some_iff]
      have hrlt : order.length - 1 - order.idxOf id < order.reverse.length := by rw [length_reverse]; omega
      have hget : order.reverse[order.length - 1 - order.idxOf id] = id := by
        have hback : order.length - 1 - (order.length - 1 - order.idxOf id) = order.idxOf id := by omega
        simp only [getElem_reverse, hback, getElem_idxOf]
      refine ⟨hrlt, hget, ?_⟩
      intro j hj heq
      have hsame := (nodup_reverse.mpr h).getElem_inj_iff.mp (heq.trans hget.symm)
      omega
    have hback : order.length - 1 - (order.length - 1 - order.idxOf id) = order.idxOf id := by omega
    rw [hplace, if_pos (mem_append_left _ hmem), idxOf_append_of_mem hmem]
    exact congrArg some hback
  · have hplace : order.reverse.idxOf? id = none := by
      rw [idxOf?_eq_none_iff, mem_reverse]
      exact hmem
    rw [hplace]
    by_cases hextra : id ∈ terminals.map HostTerminal.id
    · have hfind : (terminals.map HostTerminal.id).idxOf? id = some ((terminals.map HostTerminal.id).idxOf id) := by
        rw [idxOf?_eq_some_iff]
        refine ⟨idxOf_lt_length_of_mem hextra, getElem_idxOf _, ?_⟩
        intro j hj heq
        exact absurd heq (by simpa using not_of_lt_findIdx hj)
      rw [if_pos (mem_append_right _ hextra), idxOf_append_of_notMem hmem]
      dsimp only
      rw [hfind]
      rfl
    · have hnone : (terminals.map HostTerminal.id).idxOf? id = none := idxOf?_eq_none_iff.mpr hextra
      rw [if_neg (by rw [mem_append, not_or]; exact ⟨hmem, hextra⟩)]
      dsimp only
      rw [hnone]
      rfl

theorem listed_iff (h : order.Nodup) : listed terminals order t = true ↔ t.id ∈ host_order terminals order := by
  rw [listed, rank_eq h]
  split_ifs with hmem
  · exact ⟨fun _ => hmem, fun _ => rfl⟩
  · exact ⟨fun hnone => (nomatch hnone), fun hin => absurd hin hmem⟩

theorem byId_id {id : String} {host : HostTerminal} (h : byId terminals id = some host) :
    id ∈ terminals.map HostTerminal.id := by
  have hmem := mem_of_find?_eq_some h
  have hid := find?_some h
  rw [decide_eq_true_eq] at hid
  rw [← hid]
  exact List.mem_map_of_mem (mem_reverse.mp hmem)

theorem named_tab_of_some {host : HostTerminal} (h : byId terminals t.id = some host) :
    named_tab win terminals t = follow_tab win host t := by
  rw [named_tab, h]
  rfl

theorem named_tab_of_none (h : byId terminals t.id = none) : named_tab win terminals t = t := by
  rw [named_tab, h]

@[simp] theorem named_tab_id (win : Bool) (terminals : List HostTerminal) (t : TerminalInstance) :
    (named_tab win terminals t).id = t.id := by
  rcases h : byId terminals t.id with _ | host
  · rw [named_tab_of_none h]
  · rw [named_tab_of_some h, follow_tab_id]

/-- The tabs of a pane in the host's order. -/
def ordered_tabs (terminals : List HostTerminal) (order : List String) (tabs : List TerminalInstance) :
    List TerminalInstance :=
  refill (listed terminals order) tabs
    (sortBy (fun t : TerminalInstance => (rank terminals order t.id).getD 0) (tabs.filter (listed terminals order)))

theorem named_tabs_eq (win : Bool) (terminals : List HostTerminal) (order : List String) (tabs : List TerminalInstance) :
    named_tabs win terminals order tabs = (ordered_tabs terminals order tabs).map (named_tab win terminals) := by
  rw [ordered_tabs, ← foldl_set_slots, ← filterMap_slots]
  rfl

theorem ordered_tabs_perm (terminals : List HostTerminal) (order : List String) (tabs : List TerminalInstance) :
    (ordered_tabs terminals order tabs).Perm tabs :=
  refill_perm (sortBy_perm _ _)

/-- The listed tabs stand as the host has them. -/
theorem filter_ordered_tabs (terminals : List HostTerminal) (order : List String) (tabs : List TerminalInstance) :
    (ordered_tabs terminals order tabs).filter (listed terminals order)
      = sortBy (fun t : TerminalInstance => (rank terminals order t.id).getD 0) (tabs.filter (listed terminals order)) := by
  refine filter_refill (sortBy_perm _ _).length_eq ?_
  intro t ht
  exact (mem_filter.mp ((sortBy_perm _ _).mem_iff.mp ht)).2

/-- Tabs that stand as the host has them stay so. -/
theorem ordered_tabs_of_sorted
    (h : (tabs.filter (listed terminals order)).Pairwise fun a b =>
      (rank terminals order a.id).getD 0 ≤ (rank terminals order b.id).getD 0) :
    ordered_tabs terminals order tabs = tabs := by
  rw [ordered_tabs, sortBy_of_pairwise h, refill_self]

theorem filter_named_tabs (win : Bool) (terminals : List HostTerminal) (order : List String)
    (tabs : List TerminalInstance) :
    (named_tabs win terminals order tabs).filter (listed terminals order)
      = (sortBy (fun t : TerminalInstance => (rank terminals order t.id).getD 0)
          (tabs.filter (listed terminals order))).map (named_tab win terminals) := by
  have hcomp : listed terminals order ∘ named_tab win terminals = listed terminals order := by
    funext t
    rw [comp_apply, listed, listed, named_tab_id]
  rw [named_tabs_eq, List.filter_map, hcomp, filter_ordered_tabs]

theorem named_tabs_ids (win : Bool) (terminals : List HostTerminal) (order : List String) (tabs : List TerminalInstance) :
    ((named_tabs win terminals order tabs).map TerminalInstance.id).Perm (tabs.map TerminalInstance.id) := by
  rw [named_tabs_eq, List.map_map]
  have hcomp : TerminalInstance.id ∘ named_tab win terminals = TerminalInstance.id := by
    funext t
    exact named_tab_id win terminals t
  rw [hcomp]
  exact (ordered_tabs_perm terminals order tabs).map _

theorem map_eq_self_iff {f : TerminalInstance → TerminalInstance} : tabs.map f = tabs ↔ ∀ t ∈ tabs, f t = t := by
  have h := @map_inj_left _ _ tabs f id
  rw [List.map_id] at h
  exact h

/-- Followed again, the tabs of a pane stand as they do, each as a tab is followed again. -/
theorem named_tabs_again (win : Bool) (terminals : List HostTerminal) (order : List String)
    (tabs : List TerminalInstance) :
    named_tabs win terminals order (named_tabs win terminals order tabs)
      = (named_tabs win terminals order tabs).map (named_tab win terminals) := by
  have hsorted : ((named_tabs win terminals order tabs).filter (listed terminals order)).Pairwise fun a b =>
      (rank terminals order a.id).getD 0 ≤ (rank terminals order b.id).getD 0 := by
    rw [filter_named_tabs, pairwise_map]
    refine (sortBy_pairwise _ _).imp ?_
    intro a b hab
    rw [named_tab_id, named_tab_id]
    exact hab
  rw [named_tabs_eq win terminals order (named_tabs win terminals order tabs), ordered_tabs_of_sorted hsorted]

theorem named_tabs_again_iff (win : Bool) (terminals : List HostTerminal) (order : List String)
    (tabs : List TerminalInstance) :
    named_tabs win terminals order (named_tabs win terminals order tabs) = named_tabs win terminals order tabs
      ↔ ∀ t ∈ tabs, ∀ host, byId terminals t.id = some host → ¬ loses_name win t host := by
  have hmem : ∀ t, t ∈ named_tabs win terminals order tabs ↔ ∃ u ∈ tabs, named_tab win terminals u = t := by
    intro t
    rw [named_tabs_eq, List.mem_map]
    simp only [(ordered_tabs_perm terminals order tabs).mem_iff]
  rw [named_tabs_again]
  constructor
  · intro h t ht host hhost
    have hself := map_eq_self_iff.mp h (named_tab win terminals t) ((hmem _).mpr ⟨t, ht, rfl⟩)
    have hagain : byId terminals (named_tab win terminals t).id = some host := by rw [named_tab_id, hhost]
    rw [named_tab_of_some hagain, named_tab_of_some hhost] at hself
    exact (follow_tab_again win t host).mp hself
  · intro h
    refine map_eq_self_iff.mpr ?_
    intro t ht
    obtain ⟨u, hu, rfl⟩ := (hmem t).mp ht
    rcases hhost : byId terminals u.id with _ | host
    · rw [named_tab_of_none hhost, named_tab_of_none hhost]
    · have hagain : byId terminals (named_tab win terminals u).id = some host := by rw [named_tab_id, hhost]
      rw [named_tab_of_some hagain, named_tab_of_some hhost]
      exact (follow_tab_again win u host).mpr (h u hu host hhost)

/-- What following the host makes of a pane. -/
def followed_pane (win : Bool) (terminals : List HostTerminal) (order : List String) (p : PaneLeaf) : PaneLeaf :=
  let named := named_tabs win terminals order p.tabs
  if named = p.tabs then p
  else
    let activeId := (tabAt p.tabs p.activeTabIdx).map TerminalInstance.id
    let activeTabIdx := named.findIdx? fun t => some t.id = activeId
    { p with tabs := named, activeTabIdx := (activeTabIdx.map fun idx : ℕ => (idx : ℤ)).getD p.activeTabIdx }

@[simp] theorem followed_pane_tabs (win : Bool) (terminals : List HostTerminal) (order : List String) (p : PaneLeaf) :
    (followed_pane win terminals order p).tabs = named_tabs win terminals order p.tabs := by
  rw [followed_pane]
  dsimp only
  split_ifs with hsame
  · exact hsame.symm
  · rfl

@[simp] theorem followed_pane_id (win : Bool) (terminals : List HostTerminal) (order : List String) (p : PaneLeaf) :
    (followed_pane win terminals order p).id = p.id
      ∧ (followed_pane win terminals order p).activeServiceName = p.activeServiceName := by
  rw [followed_pane]
  dsimp only
  split_ifs
  · exact ⟨rfl, rfl⟩
  · exact ⟨rfl, rfl⟩

theorem followed_pane_active (h : tabAt p.tabs p.activeTabIdx = some t) :
    ∃ t', tabAt (followed_pane win terminals order p).tabs (followed_pane win terminals order p).activeTabIdx = some t'
      ∧ t'.id = t.id := by
  have htabs := followed_pane_tabs win terminals order p
  by_cases hsame : named_tabs win terminals order p.tabs = p.tabs
  · have hself : followed_pane win terminals order p = p := if_pos hsame
    rw [hself]
    exact ⟨t, h, rfl⟩
  · have hmem : t.id ∈ (named_tabs win terminals order p.tabs).map TerminalInstance.id := by
      rw [(named_tabs_ids win terminals order p.tabs).mem_iff]
      rw [tabAt] at h
      split_ifs at h
      exact List.mem_map_of_mem (mem_of_getElem? h)
    obtain ⟨u, hu, hid⟩ := List.mem_map.mp hmem
    rcases hfind : (named_tabs win terminals order p.tabs).findIdx? (fun u => decide (some u.id = some t.id)) with _ | j
    · have hmiss := findIdx?_eq_none_iff.mp hfind u hu
      rw [hid] at hmiss
      simp at hmiss
    · obtain ⟨hj, hat, -⟩ := findIdx?_eq_some_iff_getElem.mp hfind
      rw [decide_eq_true_eq] at hat
      have hactive : (followed_pane win terminals order p).activeTabIdx = (j : ℤ) := by
        rw [followed_pane]
        dsimp only
        rw [if_neg hsame, h, map_some, hfind]
        rfl
      refine ⟨_, ?_, some.inj hat⟩
      rw [hactive, htabs, tabAt, if_pos (Int.natCast_nonneg j), Int.toNat_natCast, getElem?_eq_getElem hj]

theorem followed (win : Bool) (terminals : List HostTerminal) (h : order.Nodup)
    (hids : (p.tabs.map TerminalInstance.id).Nodup) :
    Followed terminals order p (followed_pane win terminals order p) where
  id := (followed_pane_id win terminals order p).1
  service := (followed_pane_id win terminals order p).2
  same_tabs := by
    rw [followed_pane_tabs]
    exact named_tabs_ids win terminals order p.tabs
  active t ht := followed_pane_active ht
  unlisted i t ht hout := by
    have hlisted : listed terminals order t = false := by
      rw [Bool.eq_false_iff, Ne, listed_iff h]
      exact hout
    have hnone : byId terminals t.id = none := by
      rcases hhost : byId terminals t.id with _ | host
      · rfl
      · exact absurd (mem_append_right _ (byId_id hhost)) hout
    -- a tab the host does not list keeps its place
    have hkept := refill_getElem_of_neg hlisted ht
      (sortBy (fun t : TerminalInstance => (rank terminals order t.id).getD 0) (p.tabs.filter (listed terminals order)))
    rw [followed_pane_tabs, named_tabs_eq, getElem?_map, ordered_tabs, hkept, map_some, named_tab_of_none hnone]
  ordered := by
    have hcomp : (fun id => decide (id ∈ host_order terminals order)) ∘ TerminalInstance.id = listed terminals order := by
      funext t
      rw [comp_apply, Bool.eq_iff_iff, decide_eq_true_eq, listed_iff h]
    have hids' : (sortBy (fun t : TerminalInstance => (rank terminals order t.id).getD 0)
        (p.tabs.filter (listed terminals order))).Pairwise fun a b => a.id ≠ b.id := by
      refine pairwise_map.mp (((sortBy_perm _ _).map _).nodup_iff.mpr ?_)
      exact hids.sublist (filter_sublist.map _)
    rw [followed_pane_tabs, List.filter_map, hcomp, filter_named_tabs, List.map_map, pairwise_map]
    refine ((sortBy_pairwise _ _).and hids').imp_of_mem ?_
    intro a b ha hb hab
    have hin : ∀ t ∈ sortBy (fun t : TerminalInstance => (rank terminals order t.id).getD 0)
        (p.tabs.filter (listed terminals order)), t.id ∈ host_order terminals order := by
      intro t ht
      rw [← listed_iff h]
      exact (mem_filter.mp ((sortBy_perm _ _).mem_iff.mp ht)).2
    -- equal ranks are equal ids, and no id stands twice
    have hle := hab.1
    rw [rank_eq h, rank_eq h, if_pos (hin a ha), if_pos (hin b hb), getD_some, getD_some] at hle
    rw [comp_apply, comp_apply, named_tab_id, named_tab_id]
    refine lt_of_le_of_ne hle ?_
    intro heq
    exact hab.2 (idxOf_inj (hin a ha) |>.mp heq)

/-- What taking out tabs makes of a pane, or none when it goes. -/
def dropped_pane (ids : List String) (p : PaneLeaf) : Option PaneLeaf :=
  if ¬ ∃ t ∈ p.tabs, t.id ∈ ids then some p
  else
    let tabs := p.tabs.filter fun t => t.id ∉ ids
    if tabs = [] ∧ truthy p.activeServiceName = none then none
    else
      let kept := (tabAt p.tabs p.activeTabIdx).bind fun active => tabs.idxOf? active
      let activeTabIdx := (kept.map fun idx : ℕ => (idx : ℤ)).getD (clampIdx (some p.activeTabIdx) tabs.length)
      some { p with tabs, activeTabIdx }

theorem dropped_pane_none : dropped_pane ids p = none ↔ Collapses ids p := by
  have hempty : (p.tabs.filter fun t => t.id ∉ ids) = [] ↔ ∀ t ∈ p.tabs, t.id ∈ ids := by
    simp [filter_eq_nil_iff]
  unfold dropped_pane
  dsimp only
  rw [Collapses, ← hempty]
  by_cases hany : ∃ t ∈ p.tabs, t.id ∈ ids
  · rw [if_neg (not_not.mpr hany)]
    by_cases hgone : (p.tabs.filter fun t => t.id ∉ ids) = [] ∧ truthy p.activeServiceName = none
    · rw [if_pos hgone]
      exact ⟨fun _ => ⟨hany, hgone⟩, fun _ => rfl⟩
    · rw [if_neg hgone]
      exact ⟨fun h => (nomatch h), fun h => absurd h.2 hgone⟩
  · rw [if_pos hany]
    exact ⟨fun h => (nomatch h), fun h => absurd h.1 hany⟩

theorem dropped {p' : PaneLeaf} (h : dropped_pane ids p = some p') : Dropped ids p p' := by
  unfold dropped_pane at h
  dsimp only at h
  by_cases hany : ∃ t ∈ p.tabs, t.id ∈ ids
  · rw [if_neg (not_not.mpr hany)] at h
    split_ifs at h
    cases h
    refine ⟨rfl, rfl, rfl, ?_⟩
    intro t ht hkeep
    have hmem : t ∈ p.tabs.filter fun t => t.id ∉ ids := by
      rw [mem_filter, decide_eq_true_eq]
      refine ⟨?_, hkeep⟩
      rw [tabAt] at ht
      split_ifs at ht
      exact mem_of_getElem? ht
    have hlt := idxOf_lt_length_of_mem hmem
    have hidx : (p.tabs.filter fun t => t.id ∉ ids).idxOf? t = some ((p.tabs.filter fun t => t.id ∉ ids).idxOf t) := by
      rw [idxOf?_eq_some_iff]
      refine ⟨hlt, getElem_idxOf _, ?_⟩
      intro j hj heq
      exact absurd heq (by simpa using not_of_lt_findIdx hj)
    dsimp only
    rw [ht, bind_some, hidx, map_some, getD_some, tabAt, if_pos (Int.natCast_nonneg _),
      Int.toNat_natCast, getElem?_eq_getElem hlt, getElem_idxOf]
  · rw [if_pos hany] at h
    cases h
    refine ⟨rfl, rfl, ?_, fun t ht _ => ht⟩
    rw [eq_comm, filter_eq_self]
    intro t ht
    rw [decide_eq_true_eq]
    intro hin
    exact hany ⟨t, ht, hin⟩

end

/-! ## The whole tree -/

/-- The tabs of a tree, pane by pane. -/
def collectTerminals (node : PaneNode) : List TerminalInstance := (collectPanes node).flatMap PaneLeaf.tabs

/-- The panes of what may be left of a tree. -/
def panes_left (node : Option PaneNode) : List PaneLeaf := (node.map collectPanes).getD []

section
variable {win : Bool} {terminals : List HostTerminal} {order ids : List String} {node : PaneNode}
  {before after : List PaneLeaf} {p : PaneLeaf}

variable (hnodup : (paneIds node).Nodup)
include hnodup

/-- An edit of one pane by its id is that pane edited. -/
theorem mapPane_around {fn : PaneLeaf → PaneLeaf}
    (h : collectPanes node = before ++ p :: after) :
    collectPanes (mapPane node p.id fn) = before ++ fn p :: after := by
  have hother : ∀ q ∈ before ++ after, q.id ≠ p.id := by
    rw [paneIds, h, map_append, map_cons, nodup_middle, nodup_cons, ← map_append] at hnodup
    intro q hq heq
    exact hnodup.1 (heq ▸ List.mem_map_of_mem hq)
  have hkeep : ∀ l : List PaneLeaf, (∀ q ∈ l, q.id ≠ p.id) → (l.map fun q => if q.id = p.id then fn q else q) = l := by
    intro l hl
    induction l with
    | nil => rfl
    | cons q l ih =>
      rw [map_cons, if_neg (hl q mem_cons_self), ih fun r hr => hl r (mem_cons_of_mem q hr)]
  rw [collectPanes_mapPane, h, map_append, map_cons, if_pos rfl,
    hkeep before fun q hq => hother q (mem_append_left _ hq),
    hkeep after fun q hq => hother q (mem_append_right _ hq)]

/-- The loop over the panes, from where it stands. -/
theorem collectPanes_follow (h : collectPanes node = before ++ after) :
    collectPanes (after.foldl (follow_pane win terminals order) node)
      = before ++ after.map (followed_pane win terminals order) := by
  induction after generalizing node before with
  | nil =>
    rw [append_nil] at h
    rw [map_nil, append_nil]
    exact h
  | cons p after ih =>
    have hstep : collectPanes (follow_pane win terminals order node p)
        = before ++ followed_pane win terminals order p :: after := by
      unfold follow_pane followed_pane
      dsimp only
      split_ifs
      · exact h
      · exact mapPane_around hnodup h
    have hids : paneIds (follow_pane win terminals order node p) = paneIds node := by
      rw [paneIds, paneIds, hstep, h, map_append, map_append, map_cons, map_cons,
        (followed_pane_id win terminals order p).1]
    rw [foldl_cons, map_cons, append_cons]
    refine ih ?_ ?_
    · rw [hids]
      exact hnodup
    · rw [hstep, append_cons]

theorem collectPanes_followHostTabs :
    collectPanes (followHostTabs win node terminals order)
      = (collectPanes node).map (followed_pane win terminals order) :=
  @collectPanes_follow win terminals order node [] _ hnodup rfl

/-- The tree comes back when no pane has anything to follow. -/
theorem followHostTabs_eq_self :
    followHostTabs win node terminals order = node
      ↔ ∀ p ∈ collectPanes node, named_tabs win terminals order p.tabs = p.tabs := by
  constructor
  · intro h
    have hpanes := @collectPanes_followHostTabs win terminals order node hnodup
    rw [h] at hpanes
    have hself := hpanes.symm.trans (List.map_id _).symm
    intro p hp
    have heq : followed_pane win terminals order p = p := map_inj_left.mp hself p hp
    rw [← followed_pane_tabs, heq]
  · intro h
    rw [followHostTabs]
    revert h
    generalize collectPanes node = panes
    intro h
    induction panes with
    | nil => rfl
    | cons p panes ih =>
      have hskip : follow_pane win terminals order node p = node := if_pos (h p mem_cons_self)
      rw [foldl_cons, hskip]
      exact ih fun q hq => h q (mem_cons_of_mem p hq)

/-- Following the host twice is following it once, unless a tab lost its name. -/
theorem followHostTabs_again :
    followHostTabs win (followHostTabs win node terminals order) terminals order
        = followHostTabs win node terminals order
      ↔ ∀ t ∈ collectTerminals node, ∀ host, byId terminals t.id = some host → ¬ loses_name win t host := by
  have hpanes := @collectPanes_followHostTabs win terminals order node hnodup
  have hids : (paneIds (followHostTabs win node terminals order)).Nodup := by
    have hsame : paneIds (followHostTabs win node terminals order) = paneIds node := by
      rw [paneIds, hpanes, List.map_map, paneIds]
      exact map_congr_left fun p _ => (followed_pane_id win terminals order p).1
    rw [hsame]
    exact hnodup
  rw [followHostTabs_eq_self hids, hpanes]
  constructor
  · intro h t ht
    obtain ⟨p, hp, htabs⟩ := mem_flatMap.mp ht
    have hagain := h _ (List.mem_map_of_mem hp)
    rw [followed_pane_tabs, named_tabs_again_iff] at hagain
    exact hagain t htabs
  · intro h q hq
    obtain ⟨p, hp, rfl⟩ := List.mem_map.mp hq
    rw [followed_pane_tabs, named_tabs_again_iff]
    intro t ht
    exact h t (mem_flatMap.mpr ⟨p, hp, ht⟩)

omit hnodup in
/-- The loop over the panes, from where it stands. -/
theorem panes_left_drop {next : Option PaneNode} (hnodup : ((panes_left next).map PaneLeaf.id).Nodup)
    (h : panes_left next = before ++ after) :
    panes_left (after.foldl (drop_pane ids) next) = before ++ after.filterMap (dropped_pane ids) := by
  induction after generalizing next before with
  | nil =>
    rw [append_nil] at h
    rw [filterMap_nil, append_nil]
    exact h
  | cons p after ih =>
    have hids : ∀ l : List PaneLeaf, (l.map PaneLeaf.id).Sublist ((before ++ p :: after).map PaneLeaf.id)
        → (l.map PaneLeaf.id).Nodup := by
      intro l hl
      rw [h] at hnodup
      exact hnodup.sublist hl
    cases next with
    | none => exact absurd h.symm (append_ne_nil_of_right_ne_nil _ (cons_ne_nil _ _))
    | some node =>
      have hnode : collectPanes node = before ++ p :: after := h
      have hdistinct : (paneIds node).Nodup := hnodup
      rw [foldl_cons]
      rcases hleft : dropped_pane ids p with _ | p'
      -- the pane goes
      · have hstep : panes_left (drop_pane ids (some node) p) = before ++ after := by
          have hremove : drop_pane ids (some node) p = removePane node p.id := by
            unfold dropped_pane at hleft
            unfold drop_pane
            dsimp only at hleft ⊢
            split_ifs at hleft with hany hgone
            rw [if_neg (not_not.mpr hany), if_pos hgone]
          rw [hremove]
          by_cases halone : before ++ after = []
          · rw [(removePane_around hdistinct hnode).1 halone, halone]
            rfl
          · obtain ⟨rest, hrest, hothers⟩ := (removePane_around hdistinct hnode).2 halone
            rw [hrest]
            exact hothers
        rw [filterMap_cons_none hleft]
        refine ih ?_ hstep
        rw [hstep]
        exact hids _ (((sublist_cons_self p after).append_left before).map _)
      · have hstep : panes_left (drop_pane ids (some node) p) = before ++ p' :: after := by
          unfold dropped_pane at hleft
          unfold drop_pane
          dsimp only at hleft ⊢
          split_ifs at hleft with hany hgone
          · rw [if_neg (not_not.mpr hany), if_neg hgone, ← some.inj hleft]
            exact mapPane_around hdistinct hnode
          · rw [if_pos hany, ← some.inj hleft]
            exact hnode
        -- it stays under its id, so the panes keep their ids apart
        have hsame : p'.id = p.id := (dropped hleft).id
        rw [filterMap_cons_some hleft, append_cons]
        refine ih ?_ ?_
        · rw [hstep]
          refine hids _ ?_
          rw [map_append, map_append, map_cons, map_cons, hsame]
        · rw [hstep, append_cons]

theorem panes_left_withoutHostTabs (focusedPaneId : Option String) :
    panes_left (withoutHostTabs node focusedPaneId ids).1 = (collectPanes node).filterMap (dropped_pane ids) := by
  have hfst : (withoutHostTabs node focusedPaneId ids).1 = (collectPanes node).foldl (drop_pane ids) (some node) := by
    rw [withoutHostTabs]
    split
    · rfl
    · split_ifs
      · rfl
      · rfl
  rw [hfst]
  exact @panes_left_drop ids [] _ (some node) hnodup rfl

omit hnodup

theorem forall₂_dropped (ids : List String) (panes : List PaneLeaf) :
    List.Forall₂ (Dropped ids) (panes.filter fun p => ¬ Collapses ids p) (panes.filterMap (dropped_pane ids)) := by
  induction panes with
  | nil => exact .nil
  | cons p panes ih =>
    rcases hleft : dropped_pane ids p with _ | p'
    · rw [filterMap_cons_none hleft, filter_cons_of_neg (by simpa using dropped_pane_none.mp hleft)]
      exact ih
    · have hstays : ¬ Collapses ids p := by
        rw [← dropped_pane_none, hleft]
        exact nofun
      rw [filterMap_cons_some hleft, filter_cons_of_pos (by simpa using hstays)]
      exact .cons (dropped hleft) ih

theorem forall₂_followed (h : order.Nodup) (hids : ((collectTerminals node).map TerminalInstance.id).Nodup)
    (hnodup : (paneIds node).Nodup) :
    List.Forall₂ (Followed terminals order) (collectPanes node)
      (collectPanes (followHostTabs win node terminals order)) := by
  rw [collectPanes_followHostTabs hnodup, forall₂_map_right_iff, forall₂_same]
  intro p hp
  refine followed win terminals h ?_
  rw [collectTerminals, map_flatMap] at hids
  exact (nodup_flatMap.mp hids).1 p hp

end

/-- Each pane keeps its tabs and the one in view, the listed ones come to stand in the host's
order and the others stay, and tabs that are taken out leave the rest; and following the host
again changes nothing just when no tab had the host's name only as the title of a conversation
that it had not heard of. -/
theorem host_tabs_iff (win : Bool) (tree : PaneNode) (terminals : List HostTerminal) (order ids : List String)
    (focusedPaneId : Option String) (hpanes : (paneIds tree).Nodup)
    (htabs : ((collectTerminals tree).map TerminalInstance.id).Nodup) (horder : order.Nodup) :
    (List.Forall₂ (Followed terminals order) (collectPanes tree) (collectPanes (followHostTabs win tree terminals order))
      ∧ followHostTabs win (followHostTabs win tree terminals order) terminals order
          = followHostTabs win tree terminals order
      ∧ List.Forall₂ (Dropped ids) ((collectPanes tree).filter fun p => ¬ Collapses ids p)
          (panes_left (withoutHostTabs tree focusedPaneId ids).1))
      ↔ ∀ t ∈ collectTerminals tree, ∀ host, byId terminals t.id = some host → ¬ loses_name win t host := by
  rw [followHostTabs_again hpanes, panes_left_withoutHostTabs hpanes]
  constructor
  · intro h
    exact h.2.1
  · intro h
    exact ⟨forall₂_followed horder htabs hpanes, h, forall₂_dropped ids _⟩

/-- A shell the host runs a conversation in. -/
def hosted : HostTerminal where
  id := "peer-aaaaaaaa-lpm-1"
  label := some "Fix login"
  pinned := false
  emoji := none
  agentSession := some ⟨.claude, "c-1"⟩
  label_ne := by decide
  emoji_ne := by decide

/-- A pane with its tab, and one of this Mac. -/
def beside (sessionTitle : Option String) (label : String) : PaneNode :=
  .leaf "p" [{ id := "local", label := "Mine" }, { id := "peer-aaaaaaaa-lpm-1", label, sessionTitle }] 1 none

theorem host_tabs_iff_beside :
    List.Forall₂ (Followed [hosted] ["peer-aaaaaaaa-lpm-1"]) (collectPanes (beside none "Terminal 1"))
        (collectPanes (followHostTabs false (beside none "Terminal 1") [hosted] ["peer-aaaaaaaa-lpm-1"]))
      ∧ followHostTabs false (followHostTabs false (beside none "Terminal 1") [hosted] ["peer-aaaaaaaa-lpm-1"]) [hosted]
            ["peer-aaaaaaaa-lpm-1"]
          = followHostTabs false (beside none "Terminal 1") [hosted] ["peer-aaaaaaaa-lpm-1"]
      ∧ List.Forall₂ (Dropped ["local"]) ((collectPanes (beside none "Terminal 1")).filter fun p => ¬ Collapses ["local"] p)
          (panes_left (withoutHostTabs (beside none "Terminal 1") (some "p") ["local"]).1) := by
  refine (host_tabs_iff false (beside none "Terminal 1") [hosted] ["peer-aaaaaaaa-lpm-1"] ["local"] (some "p")
    (by decide) (by decide) (by decide)).mpr ?_
  rintro t ht host hhost ⟨-, -, hlabel, -⟩
  simp only [beside, collectTerminals, collectPanes, flatMap_cons, flatMap_nil, append_nil,
    mem_cons, not_mem_nil, or_false] at ht
  rcases ht with rfl | rfl
  · have hnone : byId [hosted] "local" = none := by decide
    cases hnone.symm.trans hhost
  · cases hhost
    exact absurd hlabel (by decide)

/-- The tab shows the host's name as the title of a conversation that it gave none of its own
for. Taking the host's it drops the title, and its own label shows until the host is followed
once more. -/
theorem name_lost_with_title :
    let tree := beside (some "Fix login") "Claude"
    let next := followHostTabs false tree [hosted] ["peer-aaaaaaaa-lpm-1"]
    (collectTerminals next).map terminalDisplayLabel = ["Mine", "Claude"]
      ∧ (collectTerminals (followHostTabs false next [hosted] ["peer-aaaaaaaa-lpm-1"])).map terminalDisplayLabel
          = ["Mine", "Fix login"]
      ∧ followHostTabs false next [hosted] ["peer-aaaaaaaa-lpm-1"] ≠ next := by
  decide +kernel

end Lpm.Panes
