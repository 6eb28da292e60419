/-
A command run on an SSH host: `ssh_command_line` and what it is put together from in
`config.rs`.

The command is quoted for each shell it goes through: the script for the login shell on the
host, and the word with it for the shell of the pane. A folder that begins with `~` keeps
`$HOME` in double quotes for the host's shell.
-/
import Lpm.Lib.Patterns
import Lpm.Lib.ShellWords
import Mathlib.Data.List.Forall2

set_option autoImplicit false

namespace Lpm.Ssh

open List

open RustText Shell

/-! ## The arguments of `ssh` -/

inductive Os where
  | unix
  | windows
  deriving DecidableEq

structure SshSettings where
  host : Str
  user : Str
  port : ℤ
  key : Str
  dir : Str

/-- `ssh_control_path`, for a user id. -/
def ssh_control_path (uid : ℕ) : Str := "/tmp/lpm-".toList ++ (toString uid).toList ++ "/cm-%C".toList

/-- `ssh_conn_opts`. -/
def ssh_conn_opts (os : Os) (uid : ℕ) : List Str :=
  (match os with
    | .unix => ["-o".toList, "ControlMaster=auto".toList, "-o".toList,
        "ControlPath=".toList ++ ssh_control_path uid, "-o".toList, "ControlPersist=10m".toList]
    | .windows => ["-o".toList, "ControlMaster=no".toList, "-o".toList, "ControlPath=none".toList])
  ++ ["-o".toList, "ServerAliveInterval=15".toList, "-o".toList, "ServerAliveCountMax=3".toList,
    "-o".toList, "ConnectTimeout=10".toList]

/-- `push_port_and_key`. What `ssh_local_path` makes of a key depends on the home folder. -/
def push_port_and_key (ssh_local_path : Str → Str) (ssh : SshSettings) (port_flag : Str) : List Str :=
  (if ssh.port > 0 ∧ ssh.port ≠ 22 then [port_flag, (toString ssh.port).toList] else [])
  ++ (if trim ssh.key ≠ [] then ["-i".toList, ssh_local_path (trim ssh.key)] else [])

/-- `ssh_args`. -/
def ssh_args (os : Os) (uid : ℕ) (ssh_local_path : Str → Str) (ssh : SshSettings) : List Str :=
  ["-t".toList] ++ ssh_conn_opts os uid ++ push_port_and_key ssh_local_path ssh "-p".toList
    ++ [ssh.user ++ '@' :: ssh.host]

/-! ## The command -/

/-- `shell_quote`. -/
def shell_quote (s : Str) : Str :=
  '\'' :: s.flatMap (fun c => if c = '\'' then "'\\''".toList else [c]) ++ ['\'']

/-- `quote_remote_path`. -/
def quote_remote_path (p : Str) : Str :=
  if p.isEmpty then []
  else if p = ['~'] then "\"$HOME\"".toList
  else match strip_prefix ['~', '/'] p with
    | some rest => "\"$HOME\"".toList ++ shell_quote ('/' :: rest)
    | none => shell_quote p

/-- `trim_end_matches('/')`. -/
def trim_end_slashes (s : Str) : Str := (s.reverse.dropWhile (· = '/')).reverse

/-- `join_remote_dir`. -/
def join_remote_dir (dir cwd : Str) : Str :=
  let cwd := trim_end_slashes (trim cwd)
  let dir := trim_end_slashes (trim dir)
  if cwd.isEmpty then dir
  else if cwd.head? = some '/' ∨ cwd.head? = some '~' then cwd
  else if dir.isEmpty then cwd
  else dir ++ '/' :: cwd

/-- `[String]::join(" && ")`. -/
def join_and (parts : List Str) : Str := List.intercalate " && ".toList parts

/-- A variable exported. -/
def export_text (kv : Str × Str) : Str := "export ".toList ++ kv.1 ++ '=' :: shell_quote kv.2

/-- `build_local_script`, for the variables in order. -/
def build_local_script (env : List (Str × Str)) (cmd : Str) : Str :=
  let parts := env.map export_text
  let cmd := trim cmd
  join_and (if cmd.isEmpty then parts else parts ++ [cmd])

/-- `build_remote_script`. -/
def build_remote_script (remote_dir : Str) (env : List (Str × Str)) (cmd : Str) : Str :=
  let body := build_local_script env cmd
  if remote_dir.isEmpty then body
  else
    let cd := "cd ".toList ++ quote_remote_path remote_dir
    if body.isEmpty then cd else cd ++ " && ".toList ++ body

/-- `wrap_as_login_shell`. -/
def wrap_as_login_shell (script : Str) : Str :=
  if (trim script).isEmpty then [] else "bash -ilc ".toList ++ shell_quote script

/-- `ssh_command_line`. -/
def ssh_command_line (os : Os) (uid : ℕ) (ssh_local_path : Str → Str) (ssh : SshSettings) (cwd : Str)
    (env : List (Str × Str)) (inner_cmd : Str) : Str :=
  let args := ssh_args os uid ssh_local_path ssh
  let argv := "ssh".toList :: (if os = .windows then args.map shell_quote else args)
  let script := build_remote_script (join_remote_dir ssh.dir cwd) env inner_cmd
  let wrapped := wrap_as_login_shell script
  join_words (if wrapped.isEmpty then argv else argv ++ [shell_quote wrapped])

/-! ## What the shells are to read -/

/-- A word that is a text as it is. -/
def text_word (s : Str) : Token := .word (literal s)

/-- The word of a folder: a `~` alone in front is the home folder of the host. -/
def folder_word (p : Str) : Word :=
  if p = ['~'] then [.expand "HOME".toList]
  else match strip_prefix ['~', '/'] p with
    | some rest => .expand "HOME".toList :: literal ('/' :: rest)
    | none => literal p

/-- Changing to the folder, if there is one, and giving each variable its value. -/
def steps (folder : Str) (env : List (Str × Str)) : List (List Token) :=
  (if folder = [] then [] else [[text_word "cd".toList, .word (folder_word folder)]])
    ++ env.map fun kv => [text_word "export".toList, text_word (kv.1 ++ '=' :: kv.2)]

/-- `&&`. -/
def AND : Token := .op ['&', '&']

section
variable {p s k v dir cwd cmd : Str} {env : List (Str × Str)} {folder : Str}

theorem reads_shell_quote (s : Str) : Reads (shell_quote s) (literal s) := reads_quote s

theorem reads_home : Reads "\"$HOME\"".toList [.expand "HOME".toList] :=
  @reads_variable "HOME".toList (by decide) (by decide) fun rest => by
    simp [var_name]

theorem reads_folder (hne : p ≠ []) : Reads (quote_remote_path p) (folder_word p) := by
  unfold quote_remote_path folder_word
  rw [if_neg (by simpa using hne)]
  by_cases hhome : p = ['~']
  · rw [if_pos hhome, if_pos hhome]
    exact reads_home
  · rw [if_neg hhome, if_neg hhome]
    cases strip_prefix ['~', '/'] p with
    | none => exact reads_shell_quote p
    | some rest => exact reads_home.append (reads_shell_quote _)

theorem bare_of_letters (h : ∀ c ∈ s, (c.isAlphanum || c == '_') = true) : ∀ c ∈ s, is_bare c = true := by
  intro c hc
  have hletter := h c hc
  rw [is_bare, Bool.not_eq_true', contains_eq_mem, decide_eq_false_iff_not]
  intro hin
  simp only [BLANKS, OPERATORS, ACTIVE, mem_append, mem_cons, not_mem_nil, or_false] at hin
  rcases hin with ((((rfl | rfl | rfl) | (rfl | rfl)) | hop) | hactive)
  · exact absurd hletter (by decide)
  · exact absurd hletter (by decide)
  · exact absurd hletter (by decide)
  · exact absurd hletter (by decide)
  · exact absurd hletter (by decide)
  · rcases hop with rfl | rfl | rfl | rfl | rfl | rfl | rfl | rfl <;> exact absurd hletter (by decide)
  · rcases hactive with rfl | rfl | rfl | rfl | rfl | rfl | rfl | rfl | rfl <;> exact absurd hletter (by decide)

/-- A name that a shell takes for a variable's. -/
def is_name (k : Str) : Bool :=
  !k.isEmpty && k.all (fun c => c.isAlphanum || c == '_') && !(k.headD '0').isDigit

/-! ## The script -/

theorem spells_cd (hne : p ≠ []) :
    Spells ("cd ".toList ++ quote_remote_path p) [text_word "cd".toList, .word (folder_word p)] :=
  (@reads_bare "cd".toList (by decide) (bare_of_letters (List.all_eq_true.mp (by decide)))).spells.append (reads_folder hne).spells

theorem export_text_eq (kv : Str × Str) :
    export_text kv = "export".toList ++ ' ' :: (kv.1 ++ ['='] ++ shell_quote kv.2) := by
  have hword : "export ".toList = "export".toList ++ [' '] := by decide +kernel
  unfold export_text
  rw [hword]
  simp

theorem export_text_ne_nil (kv : Str × Str) : export_text kv ≠ [] := by
  rw [export_text_eq]
  exact append_ne_nil_of_right_ne_nil _ (cons_ne_nil _ _)

theorem spells_export (hk : is_name k = true) :
    Spells (export_text (k, v)) [text_word "export".toList, text_word (k ++ '=' :: v)] := by
  rw [is_name, Bool.and_eq_true, Bool.and_eq_true, List.all_eq_true] at hk
  have hname : Reads (k ++ ['=']) (literal (k ++ ['='])) := by
    refine reads_bare (by simp) fun c hc => ?_
    rcases mem_append.mp hc with hin | hin
    · exact bare_of_letters hk.1.2 c hin
    · rw [mem_singleton.mp hin]
      decide
  have hword := hname.append (reads_shell_quote v)
  have hlit : text_word (k ++ '=' :: v) = .word (literal (k ++ ['=']) ++ literal v) := by simp [text_word, literal]
  have hexport := (@reads_bare "export".toList (by decide) (bare_of_letters (List.all_eq_true.mp (by decide)))).spells
  rw [export_text_eq, hlit]
  exact hexport.append hword.spells

/-- The texts of the steps. -/
def step_texts (folder : Str) (env : List (Str × Str)) : List Str :=
  (if folder = [] then [] else ["cd ".toList ++ quote_remote_path folder])
    ++ env.map export_text

theorem spells_steps (henv : ∀ kv ∈ env, is_name kv.1 = true) :
    List.Forall₂ Spells (step_texts folder env) (steps folder env) := by
  have hexports : List.Forall₂ Spells (env.map export_text)
      (env.map fun kv => [text_word "export".toList, text_word (kv.1 ++ '=' :: kv.2)]) := by
    induction env with
    | nil => exact List.Forall₂.nil
    | cons kv env ih =>
      exact List.Forall₂.cons (spells_export (henv kv mem_cons_self))
        (ih fun kv hkv => henv kv (mem_cons_of_mem _ hkv))
  unfold step_texts steps
  by_cases hfolder : folder = []
  · rw [if_pos hfolder, if_pos hfolder]
    exact hexports
  · rw [if_neg hfolder, if_neg hfolder]
    exact List.Forall₂.cons (spells_cd hfolder) hexports

variable {ts : List Str}

theorem join_and_cons (t : Str) (hne : ts ≠ []) :
    join_and (t :: ts) = t ++ ' ' :: (['&', '&'] ++ ' ' :: join_and ts) := by
  cases ts with
  | nil => exact absurd rfl hne
  | cons u ts => simp [join_and, List.intercalate]

/-- Texts of whole tokens with `&&` between each two of them. -/
theorem spells_join_and {tss : List (List Token)} (hne : ts ≠ []) (h : List.Forall₂ Spells ts tss) :
    Spells (join_and ts) (List.intercalate [AND] tss) := by
  induction h with
  | nil => exact absurd rfl hne
  | @cons t toks ts tss hspell hrest ih =>
    cases ts with
    | nil =>
      cases hrest
      simpa [join_and, List.intercalate] using hspell
    | cons u ts =>
      have hmore := spells_and.append (ih (cons_ne_nil _ _))
      rw [join_and_cons t (cons_ne_nil _ _)]
      cases tss with
      | nil => cases hrest
      | cons us tss =>
        have hjoin : List.intercalate [AND] (toks :: us :: tss) = toks ++ ([AND] ++ List.intercalate [AND] (us :: tss)) := by
          simp [List.intercalate]
        rw [hjoin]
        exact hspell.append hmore

/-- What stands before the command. -/
def before_cmd (ts : List Str) : Str := ts.flatMap fun t => t ++ " && ".toList

theorem join_and_last (ts : List Str) (cmd : Str) : join_and (ts ++ [cmd]) = before_cmd ts ++ cmd := by
  induction ts with
  | nil => simp [join_and, before_cmd, List.intercalate]
  | cons t ts ih =>
    rw [cons_append, join_and_cons t (by simp), ih]
    simp [before_cmd]

/-- The steps are read, and then the command by itself. -/
theorem tokens_before_cmd {tss : List (List Token)} (h : List.Forall₂ Spells ts tss) (rest : Str) :
    tokens (before_cmd ts ++ rest) = (tokens rest).map (tss.flatMap (fun toks => toks ++ [AND]) ++ ·) := by
  induction h with
  | nil => simp [before_cmd]
  | @cons t toks ts tss hspell hrest ih =>
    have htext : before_cmd (t :: ts) ++ rest = t ++ ' ' :: (['&', '&'] ++ ' ' :: (before_cmd ts ++ rest)) := by
      simp [before_cmd]
    rw [htext, hspell.then, spells_and.then, ih, Option.map_map, Option.map_map]
    congr 1
    funext more
    simp [AND]

theorem join_and_ne_nil (hne : ts ≠ []) (h : ∀ t ∈ ts, t ≠ []) : join_and ts ≠ [] := by
  cases ts with
  | nil => exact absurd rfl hne
  | cons t ts =>
    have ht := h t mem_cons_self
    cases ts with
    | nil => simpa [join_and, List.intercalate] using ht
    | cons u ts =>
      rw [join_and_cons t (cons_ne_nil _ _)]
      simp

/-- The script is the steps and the command, as far as there are any. -/
theorem build_remote_script_eq (folder : Str) (env : List (Str × Str)) (cmd : Str) :
    build_remote_script folder env cmd
      = join_and (step_texts folder env ++ if trim cmd = [] then [] else [trim cmd]) := by
  have hlocal : build_local_script env cmd
      = join_and (env.map export_text
        ++ if trim cmd = [] then [] else [trim cmd]) := by
    unfold build_local_script
    by_cases hcmd : trim cmd = []
    · simp [hcmd]
    · simp [hcmd]
  unfold build_remote_script step_texts
  dsimp only
  rw [hlocal]
  generalize hbody : env.map export_text
    ++ (if trim cmd = [] then [] else [trim cmd]) = body
  by_cases hfolder : folder = []
  · rw [if_pos (by simpa using hfolder), if_pos hfolder, nil_append, hbody]
  · rw [if_neg (by simpa using hfolder), if_neg hfolder, append_assoc [_], hbody]
    by_cases hnil : body = []
    · rw [hnil]
      simp [join_and, List.intercalate]
    · have hfull : join_and body ≠ [] := by
        refine join_and_ne_nil hnil fun t ht => ?_
        rw [← hbody] at ht
        rcases mem_append.mp ht with hin | hin
        · obtain ⟨kv, -, rfl⟩ := List.mem_map.mp hin
          exact export_text_ne_nil kv
        · split_ifs at hin with hcmd
          · exact nomatch hin
          · rw [mem_singleton.mp hin]
            exact hcmd
      rw [if_neg (by simpa using hfull), singleton_append, join_and_cons _ hnil]
      simp

/-! ## The folder -/

/-- The folder a command is to run in: a working folder that is absolute or in the home
folder stands for itself, and another one is below the remote folder. -/
def asked_folder (dir cwd : Str) : Str :=
  let cwd := trim cwd
  let dir := trim dir
  if cwd = [] then dir
  else if cwd.head? = some '/' ∨ cwd.head? = some '~' then cwd
  else if dir = [] then cwd
  else dir ++ '/' :: cwd

/-- A folder of nothing but slashes: the root of the host. -/
def IsRoot (p : Str) : Prop := trim p ≠ [] ∧ ∀ c ∈ trim p, c = '/'

instance (p : Str) : Decidable (IsRoot p) := @instDecidableAnd _ _ inferInstance (List.decidableBAll _ _)

theorem trim_end_slashes_split (s : Str) : ∃ n, s = trim_end_slashes s ++ List.replicate n '/' := by
  have hsplit : s.reverse.takeWhile (· = '/') ++ s.reverse.dropWhile (· = '/') = s.reverse :=
    takeWhile_append_dropWhile
  have hall : s.reverse.takeWhile (· = '/') = List.replicate (s.reverse.takeWhile (· = '/')).length '/' :=
    eq_replicate_iff.mpr ⟨rfl, fun c hc => by simpa using mem_takeWhile_imp hc⟩
  refine ⟨(s.reverse.takeWhile (· = '/')).length, ?_⟩
  have hback := congrArg List.reverse hsplit
  rw [reverse_append, reverse_reverse, hall, reverse_replicate] at hback
  exact hback.symm

theorem trim_end_slashes_nil {s : Str} : trim_end_slashes s = [] ↔ ∀ c ∈ s, c = '/' := by
  rw [trim_end_slashes, reverse_eq_nil_iff, dropWhile_eq_nil_iff]
  simp

/-- Slashes at the end and slashes in a row make no component. -/
theorem components_slashes {p : Str} (hne : p ≠ []) (n : ℕ) (q : Str) :
    components (p ++ List.replicate n '/') = components p
      ∧ components (p ++ List.replicate n '/' ++ '/' :: q) = components (p ++ '/' :: q) := by
  have hhead : ∀ t : Str, (p ++ t).head? = p.head? := fun t => head?_append_of_ne_nil p hne
  have hfirst : ∀ ts : List Str, (p.splitOn '/' ++ ts).head? = (p.splitOn '/').head? := fun ts =>
    head?_append_of_ne_nil _ (splitOn_ne_nil '/' p)
  have hrow : ∀ n, ∃ blanks : List Str, (p ++ List.replicate n '/').splitOn '/' = p.splitOn '/' ++ blanks
      ∧ ∀ part ∈ blanks, part = [] := by
    intro n
    induction n with
    | zero => exact ⟨[], by simp, by simp⟩
    | succ n ih =>
      obtain ⟨blanks, hsplit, hblank⟩ := ih
      refine ⟨blanks ++ [[]], ?_, ?_⟩
      · rw [replicate_succ', ← append_assoc, splitOn_append_cons_self, hsplit, append_assoc]
        rfl
      · intro part hpart
        rcases mem_append.mp hpart with hin | hin
        · exact hblank part hin
        · exact mem_singleton.mp hin
  obtain ⟨blanks, hsplit, hblank⟩ := hrow n
  have hskip : ∀ {β : Type} (f : Str → Option β), f [] = none → blanks.filterMap f = [] := by
    intro β f hf
    rw [filterMap_eq_nil_iff]
    intro part hpart
    rw [hblank part hpart]
    exact hf
  constructor
  · unfold components
    dsimp only
    rw [hsplit, hhead, hfirst, filterMap_append, hskip _ (by simp), append_nil]
  · unfold components
    dsimp only
    rw [splitOn_append_cons_self, splitOn_append_cons_self, hsplit, append_assoc, hhead, append_assoc,
      hhead, hfirst, hfirst, filterMap_append, filterMap_append, filterMap_append, hskip _ (by simp),
      nil_append]

theorem components_trim_end {s : Str} (hne : trim_end_slashes s ≠ []) : components (trim_end_slashes s) = components s := by
  obtain ⟨n, hsplit⟩ := trim_end_slashes_split s
  conv_rhs => rw [hsplit]
  exact (components_slashes hne n []).1.symm

theorem head_trim_end {s : Str} (hne : trim_end_slashes s ≠ []) : (trim_end_slashes s).head? = s.head? := by
  obtain ⟨n, hsplit⟩ := trim_end_slashes_split s
  conv_rhs => rw [hsplit]
  exact (head?_append_of_ne_nil _ hne).symm

/-- The folder is the one that is asked for, unless that has to do with the root. -/
theorem join_remote_dir_asked (hcwd : ¬IsRoot cwd)
    (hdir : IsRoot dir → (trim cwd).head? = some '/' ∨ (trim cwd).head? = some '~') :
    components (join_remote_dir dir cwd) = components (asked_folder dir cwd)
      ∧ (join_remote_dir dir cwd = [] ↔ asked_folder dir cwd = []) := by
  have hend : ∀ {p : Str}, ¬IsRoot p → trim p ≠ [] → trim_end_slashes (trim p) ≠ [] :=
    fun hnot hne hnil => hnot ⟨hne, trim_end_slashes_nil.mp hnil⟩
  have hnil : trim_end_slashes [] = [] := rfl
  unfold join_remote_dir asked_folder
  dsimp only
  by_cases hblank : trim cwd = []
  · have hroot : ¬IsRoot dir := fun h => by
      rcases hdir h with hhead | hhead
      · rw [hblank] at hhead
        exact nomatch hhead
      · rw [hblank] at hhead
        exact nomatch hhead
    rw [hblank, hnil, isEmpty_nil, if_pos rfl, if_pos rfl]
    by_cases hd : trim dir = []
    · rw [hd, hnil]
      simp
    · have hne := hend hroot hd
      exact ⟨components_trim_end hne, by simp [hne, hd]⟩
  · have hne := hend hcwd hblank
    rw [if_neg (by simpa using hne), if_neg hblank, head_trim_end hne]
    -- an absolute or tilde folder stands alone, any other below `dir`
    by_cases habs : (trim cwd).head? = some '/' ∨ (trim cwd).head? = some '~'
    · rw [if_pos habs, if_pos habs]
      exact ⟨components_trim_end hne, by simp [hne, hblank]⟩
    · rw [if_neg habs, if_neg habs]
      by_cases hd : trim dir = []
      · rw [hd, hnil, isEmpty_nil, if_pos rfl, if_pos rfl]
        exact ⟨components_trim_end hne, by simp [hne, hblank]⟩
      · have hdne := hend (fun h => habs (hdir h)) hd
        rw [if_neg (by simpa using hdne), if_neg hd]
        obtain ⟨m, hm⟩ := trim_end_slashes_split (trim cwd)
        obtain ⟨n, hn⟩ := trim_end_slashes_split (trim dir)
        refine ⟨?_, by simp⟩
        conv_rhs => rw [hn, (components_slashes hdne n (trim cwd)).2, hm]
        have hlast := (@components_slashes (trim_end_slashes (trim dir) ++ '/' :: trim_end_slashes (trim cwd))
          (by simp) m []).1
        rw [append_assoc, cons_append] at hlast
        exact hlast.symm

/-! ## The whole line -/

/-- The script for the host. -/
def script_of (ssh : SshSettings) (cwd : Str) (env : List (Str × Str)) (cmd : Str) : Str :=
  build_remote_script (join_remote_dir ssh.dir cwd) env cmd

/-- What every shell on the way reads. -/
structure Carried (os : Os) (uid : ℕ) (ssh_local_path : Str → Str) (ssh : SshSettings) (cwd : Str)
    (env : List (Str × Str)) (cmd : Str) : Prop where
  line : tokens (ssh_command_line os uid ssh_local_path ssh cwd env cmd)
    = some (("ssh".toList :: ssh_args os uid ssh_local_path ssh
        ++ [wrap_as_login_shell (script_of ssh cwd env cmd)]).map text_word)
  word : tokens (wrap_as_login_shell (script_of ssh cwd env cmd))
    = some (["bash".toList, "-ilc".toList, script_of ssh cwd env cmd].map text_word)
  /-- The steps come first, and the command is read as it is. -/
  runs : trim cmd ≠ [] → ∃ before, script_of ssh cwd env cmd = before ++ trim cmd
    ∧ ∀ rest, tokens (before ++ rest)
        = (tokens rest).map ((steps (join_remote_dir ssh.dir cwd) env).flatMap (fun toks => toks ++ [AND]) ++ ·)
  prepares : trim cmd = [] →
    tokens (script_of ssh cwd env cmd) = some (List.intercalate [AND] (steps (join_remote_dir ssh.dir cwd) env))
  folder : components (join_remote_dir ssh.dir cwd) = components (asked_folder ssh.dir cwd)
    ∧ (join_remote_dir ssh.dir cwd = [] ↔ asked_folder ssh.dir cwd = [])
  absolute : (trim cwd).head? = some '/' → join_remote_dir ssh.dir cwd = trim_end_slashes (trim cwd)

/-- With something to run the script is not blank. -/
theorem script_not_blank (h : folder ≠ [] ∨ env ≠ [] ∨ trim cmd ≠ []) :
    trim (build_remote_script folder env cmd) ≠ [] := by
  have hvisible : ∀ {s : Str} {c : Char}, c ∈ s → is_whitespace c = false → trim s ≠ [] := by
    intro s c hc hspace hnil
    rcases mem_trim hc with hwhite | hin
    · rw [hspace] at hwhite
      exact nomatch hwhite
    · rw [hnil] at hin
      exact nomatch hin
  rw [build_remote_script_eq]
  cases hsteps : step_texts folder env with
  | nil =>
    -- no folder and no variable, so it is the command alone
    have hcmd : trim cmd ≠ [] := by
      unfold step_texts at hsteps
      obtain ⟨hcd, hexports⟩ := append_eq_nil_iff.mp hsteps
      rcases h with h | h | h
      · rw [if_neg h] at hcd
        exact nomatch hcd
      · exact absurd (map_eq_nil_iff.mp hexports) h
      · exact h
    rw [if_neg hcmd, nil_append]
    obtain ⟨c, s, hs⟩ := exists_cons_of_ne_nil hcmd
    refine @hvisible _ c ?_ (@trim_head cmd c ?_)
    · rw [hs]
      simp [join_and, List.intercalate]
    · rw [hs]
      exact rfl
  | cons t ts =>
    have hletter : ∃ c ∈ t, is_whitespace c = false := by
      have ht : t ∈ step_texts folder env := hsteps ▸ mem_cons_self
      unfold step_texts at ht
      rcases mem_append.mp ht with hin | hin
      · split_ifs at hin
        · exact nomatch hin
        · rw [mem_singleton.mp hin]
          exact ⟨'c', mem_append_left _ (by decide), by decide⟩
      · obtain ⟨kv, -, rfl⟩ := List.mem_map.mp hin
        rw [export_text_eq]
        exact ⟨'e', mem_append_left _ (by decide), by decide⟩
    obtain ⟨c, hc, hspace⟩ := hletter
    refine hvisible ?_ hspace
    by_cases hmore : ts ++ (if trim cmd = [] then [] else [trim cmd]) = []
    · rw [cons_append, hmore]
      simpa [join_and, List.intercalate] using hc
    · rw [cons_append, join_and_cons t hmore]
      exact mem_append_left _ hc

/-- The line is read argument by argument. -/
theorem spells_line {os : Os} {args : List Str} {wrapped : Str}
    (hargs : os = .unix → ∀ a ∈ args, a ≠ [] ∧ ∀ c ∈ a, is_bare c = true) :
    Spells (join_words (("ssh".toList :: if os = .windows then args.map shell_quote else args) ++ [shell_quote wrapped]))
      (("ssh".toList :: args ++ [wrapped]).map text_word) := by
  have hread : List.Forall₂ Reads (if os = .windows then args.map shell_quote else args) (args.map literal) := by
    cases os with
    | windows =>
      rw [if_pos rfl]
      clear hargs
      induction args with
      | nil => exact List.Forall₂.nil
      | cons a args ih => exact List.Forall₂.cons (reads_shell_quote a) ih
    | unix =>
      rw [if_neg (by decide)]
      replace hargs := hargs rfl
      induction args with
      | nil => exact List.Forall₂.nil
      | cons a args ih =>
        have ha := hargs a mem_cons_self
        exact List.Forall₂.cons (reads_bare ha.1 ha.2) (ih fun b hb => hargs b (mem_cons_of_mem _ hb))
  have hssh : Reads "ssh".toList (literal "ssh".toList) := reads_bare (by decide) (bare_of_letters (List.all_eq_true.mp (by decide)))
  have hall := List.Forall₂.cons hssh (rel_append hread (List.Forall₂.cons (reads_shell_quote wrapped) List.Forall₂.nil))
  have hspell := spells_join (cons_ne_nil _ _) hall
  have hwords : ("ssh".toList :: args ++ [wrapped]).map text_word
      = (literal "ssh".toList :: (args.map literal ++ [literal wrapped])).map Token.word := by
    simp [text_word]
  rw [hwords]
  exact hspell

theorem spells_wrapped (script : Str) :
    Spells ("bash -ilc ".toList ++ shell_quote script) (["bash".toList, "-ilc".toList, script].map text_word) := by
  have hbash : Reads "bash".toList (literal "bash".toList) := reads_bare (by decide) (bare_of_letters (List.all_eq_true.mp (by decide)))
  have hflags : Reads "-ilc".toList (literal "-ilc".toList) := reads_bare (by decide) (List.all_eq_true.mp (by decide))
  exact hbash.spells.append (hflags.spells.append (reads_shell_quote script).spells)

/-- With something to run the line carries it through every shell. On Unix the arguments of
`ssh` stand in the line as they are, so they are to be plain. -/
theorem ssh_line_carried (os : Os) (uid : ℕ) (ssh_local_path : Str → Str) (ssh : SshSettings) (cwd : Str)
    (env : List (Str × Str)) (cmd : Str)
    (hargs : os = .unix → ∀ a ∈ ssh_args os uid ssh_local_path ssh, a ≠ [] ∧ ∀ c ∈ a, is_bare c = true)
    (henv : ∀ kv ∈ env, is_name kv.1 = true)
    (hrun : asked_folder ssh.dir cwd ≠ [] ∨ env ≠ [] ∨ trim cmd ≠ [])
    (hcwd : ¬IsRoot cwd) (hdir : IsRoot ssh.dir → (trim cwd).head? = some '/' ∨ (trim cwd).head? = some '~') :
    Carried os uid ssh_local_path ssh cwd env cmd := by
  have hfolder := join_remote_dir_asked hcwd hdir
  have hblank : trim (script_of ssh cwd env cmd) ≠ [] :=
    script_not_blank (hrun.imp_left fun h hnil => h (hfolder.2.mp hnil))
  -- the script is not blank, so it is wrapped
  have hwrap : wrap_as_login_shell (script_of ssh cwd env cmd)
      = "bash -ilc ".toList ++ shell_quote (script_of ssh cwd env cmd) := by
    rw [wrap_as_login_shell, if_neg (by simpa using hblank)]
  have hsteps := @spells_steps env (join_remote_dir ssh.dir cwd) henv
  refine ⟨?_, ?_, fun hcmd => ?_, fun hcmd => ?_, hfolder, fun habs => ?_⟩
  · have hne : wrap_as_login_shell (script_of ssh cwd env cmd) ≠ [] := by
      rw [hwrap]
      exact append_ne_nil_of_right_ne_nil _ (cons_ne_nil _ _)
    unfold ssh_command_line
    dsimp only
    rw [← script_of, if_neg (by simpa using hne)]
    exact (spells_line hargs).last
  · rw [hwrap]
    exact (spells_wrapped _).last
  · refine ⟨before_cmd (step_texts (join_remote_dir ssh.dir cwd) env), ?_, tokens_before_cmd hsteps⟩
    rw [script_of, build_remote_script_eq, if_neg hcmd, join_and_last]
  · rw [script_of, build_remote_script_eq, if_pos hcmd, append_nil]
    refine (spells_join_and ?_ hsteps).last
    intro hnil
    obtain ⟨hcd, hexports⟩ := append_eq_nil_iff.mp hnil
    rcases hrun with h | h | h
    · rw [if_neg fun hno => h (hfolder.2.mp hno)] at hcd
      exact nomatch hcd
    · exact h (map_eq_nil_iff.mp hexports)
    · exact h hcmd
  · have hne : trim cwd ≠ [] := fun hnil => by
      rw [hnil] at habs
      exact nomatch habs
    have hend : trim_end_slashes (trim cwd) ≠ [] := fun hnil => hcwd ⟨hne, trim_end_slashes_nil.mp hnil⟩
    unfold join_remote_dir
    dsimp only
    rw [if_neg (by simpa using hend), head_trim_end hend, if_pos (Or.inl habs)]

theorem plain_of_all {args : List Str} (h : args.all (fun a => !a.isEmpty && a.all is_bare) = true) :
    ∀ a ∈ args, a ≠ [] ∧ ∀ c ∈ a, is_bare c = true := by
  intro a ha
  have hplain := List.all_eq_true.mp h a ha
  rw [Bool.and_eq_true, Bool.not_eq_true', isEmpty_eq_false_iff, List.all_eq_true] at hplain
  exact hplain

/-- A folder below the home folder, a value with quotes, a dollar sign and a newline, and an
absolute working folder. -/
theorem ssh_line_carried_srv :
    Carried .unix 501 id ⟨"h".toList, "u".toList, 2222, [], "~/code".toList⟩ "/srv/it's".toList
        [("A".toList, "it's\n$HOME \"x\"".toList)] "make".toList
      ∧ Carried .windows 0 id ⟨"h".toList, "u".toList, 22, "C:\\a b".toList, "~/code/".toList⟩ "web".toList [] [] :=
  ⟨ssh_line_carried .unix 501 id ⟨"h".toList, "u".toList, 2222, [], "~/code".toList⟩ "/srv/it's".toList
      [("A".toList, "it's\n$HOME \"x\"".toList)] "make".toList (fun _ => plain_of_all (by decide +kernel))
      (List.all_eq_true.mp (by decide +kernel)) (by decide +kernel) (by decide +kernel) (by decide +kernel),
    ssh_line_carried .windows 0 id ⟨"h".toList, "u".toList, 22, "C:\\a b".toList, "~/code/".toList⟩ "web".toList [] []
      (fun h => nomatch h) (fun _ h => nomatch h) (by decide +kernel) (by decide +kernel) (by decide +kernel)⟩

/-- With nothing to run the line ends with the host. -/
theorem no_last_word : ¬ ∃ wrapped : Str,
    tokens (ssh_command_line .unix 501 id ⟨"h".toList, "u".toList, 0, [], []⟩ [] [] [])
      = some (("ssh".toList :: ssh_args .unix 501 id ⟨"h".toList, "u".toList, 0, [], []⟩ ++ [wrapped]).map text_word) := by
  have heval : tokens (ssh_command_line .unix 501 id ⟨"h".toList, "u".toList, 0, [], []⟩ [] [] [])
      = some (("ssh".toList :: ssh_args .unix 501 id ⟨"h".toList, "u".toList, 0, [], []⟩).map text_word) := by
    decide +kernel
  rintro ⟨wrapped, h⟩
  rw [heval] at h
  have hlen := congrArg List.length (Option.some.inj h)
  rw [length_map, length_map, length_append] at hlen
  exact absurd hlen (by simp)

/-- The root as a working folder gives way to the remote folder. -/
example : join_remote_dir "/srv/app".toList "/".toList = "/srv/app".toList := by decide +kernel

end

end Lpm.Ssh
