import Ferrite.Library.Assoc
import Ferrite.Text.Format
import Mathlib.Data.List.TakeWhile

/-!
# The environment of the shell

The shell keeps its variables in an array of 32 entries of 256 characters, each a name, an equals
sign and a value. `export` sets one and `getenv` searches the array from the front. Entries are
the characters in front of the NUL.
-/
namespace Ferrite.User
open Assoc Text

def maxLine : ℕ := 256
def maxEnv : ℕ := 32
def maxEnvLen : ℕ := 256

abbrev Environ := List (List Char)

/-- `strncmp(a, b, n) == 0`. -/
def strncmpZero : ℕ → List Char → List Char → Bool
  | 0, _, _ => true
  | _ + 1, [], [] => true
  | _ + 1, [], _ :: _ => false
  | _ + 1, _ :: _, [] => false
  | n + 1, c :: a, d :: b => if c = d then strncmpZero n a b else false

/-- The test of an entry in `getenv` and `setenv`. -/
def isVar (name entry : List Char) : Bool :=
  strncmpZero name.length entry name && entry[name.length]? = some '='

def getenv (name : List Char) : Environ → Option (List Char)
  | [] => none
  | entry :: env => if isVar name entry then some (entry.drop (name.length + 1)) else getenv name env

/-- `snprintf(entry, MAX_ENV_LEN, "%s=%s", name, value)`. A text that is longer than the entry is
written over what is behind it and has no result. -/
def putEntry (name value : List Char) : Option (List Char) :=
  (libcKfmt ⟨fun k => if k = 0 then 1 else 2, fun p => if p = 1 then name else value⟩
    ['%', 's', '=', '%', 's']).bind fun r => if r.1.length < maxEnvLen then some r.1 else none

/-- The loop of `setenv`, and the array if it finds the name. -/
def setLoop (name value : List Char) : Environ → Option (Option Environ)
  | [] => some none
  | entry :: env =>
      if isVar name entry then (putEntry name value).map fun text => some (text :: env)
      else (setLoop name value env).map fun r => r.map (entry :: ·)

def setenv (env : Environ) (name value : List Char) : Option (ℤ × Environ) :=
  (setLoop name value env).bind fun r =>
    match r with
    | some env => some (0, env)
    | none =>
        if maxEnv ≤ env.length then some (-1, env)
        else (putEntry name value).map fun text => (0, env ++ [text])

/-- `builtin_export`, on the words of a line. -/
def builtinExport (env : Environ) (argv : List (List Char)) : Option (ℤ × Environ) :=
  match argv[1]? with
  | none => some (1, env)
  | some arg =>
      match arg.dropWhile (· ≠ '=') with
      | [] => some (1, env)
      | _ :: value =>
          (setenv env (arg.takeWhile (· ≠ '=')) value).map fun r => (if r.1 < 0 then 1 else 0, r.2)

/-- `init_env`. -/
def initEnv : Environ :=
  [['P', 'A', 'T', 'H', '=', '/', 'b', 'i', 'n', ':', '/', 's', 'b', 'i', 'n'], ['H', 'O', 'M', 'E', '=', '/'],
    ['U', 'S', 'E', 'R', '=', 'r', 'o', 'o', 't']]

/-- One `export` after the other. -/
def runExports : Environ → List (List (List Char)) → Option (List ℤ × Environ)
  | env, [] => some ([], env)
  | env, argv :: calls =>
      (builtinExport env argv).bind fun r => (runExports r.2 calls).map fun t => (r.1 :: t.1, t.2)

/-! ## The variables -/

abbrev Vars := Store (List Char) (List Char)

/-- `export` on the variables: what is in front of the first equals sign is the name. -/
def exportTo (s : Vars) (argv : List (List Char)) : ℤ × Vars :=
  match argv[1]? with
  | none => (1, s)
  | some arg =>
      if '=' ∈ arg then
        let r := s.assign maxEnv (arg.takeWhile (· ≠ '=')) ((arg.dropWhile (· ≠ '=')).drop 1)
        (if r.1 then 0 else 1, r.2)
      else (1, s)

def runVars : Vars → List (List (List Char)) → List ℤ × Vars
  | s, [] => ([], s)
  | s, argv :: calls =>
      let r := exportTo s argv
      let t := runVars r.2 calls
      (r.1 :: t.1, t.2)

def pathName : List Char := ['P', 'A', 'T', 'H']
def homeName : List Char := ['H', 'O', 'M', 'E']
def userName : List Char := ['U', 'S', 'E', 'R']

def initTable : List (List Char × List Char) :=
  [(pathName, ['/', 'b', 'i', 'n', ':', '/', 's', 'b', 'i', 'n']), (homeName, ['/']),
    (userName, ['r', 'o', 'o', 't'])]

def initVars : Vars := ⟨find initTable, 3⟩

/-- The entry of a variable. -/
def entryOf (e : List Char × List Char) : List Char := e.1 ++ '=' :: e.2

variable {env : Environ} {name name' value entry arg : List Char}
  {kv kv' : List (List Char × List Char)} {s : Vars}
  {n : ℕ}

/-! ## Entries -/

theorem strncmpZero_iff : strncmpZero name.length entry name = true ↔ name <+: entry := by
  induction name generalizing entry with
  | nil => simp [strncmpZero]
  | cons c name ih =>
      cases entry with
      | nil => simp [strncmpZero]
      | cons d entry =>
          rw [List.length_cons, strncmpZero, List.cons_prefix_cons]
          by_cases h : d = c
          · rw [if_pos h, ih]
            simp [h]
          · rw [if_neg h]
            simp [Ne.symm h]

theorem isVar_iff : isVar name entry = true ↔ ∃ value, entry = name ++ '=' :: value := by
  unfold isVar
  rw [Bool.and_eq_true, strncmpZero_iff, decide_eq_true_iff]
  constructor
  · rintro ⟨⟨rest, rfl⟩, hsign⟩
    rw [List.getElem?_append_right le_rfl, Nat.sub_self] at hsign
    cases rest with
    | nil => cases hsign
    | cons c rest =>
        obtain rfl : c = '=' := Option.some.inj hsign
        exact ⟨rest, rfl⟩
  · rintro ⟨value, rfl⟩
    refine ⟨List.prefix_append _ _, ?_⟩
    rw [List.getElem?_append_right le_rfl, Nat.sub_self]
    rfl

/-- An entry is that of its own name only. -/
theorem isVar_entryOf {e : List Char × List Char} (hname : '=' ∉ name) (he : '=' ∉ e.1) :
    isVar name (entryOf e) = decide (e.1 = name) := by
  rw [Bool.eq_iff_iff, isVar_iff, decide_eq_true_iff]
  unfold entryOf
  constructor
  · rintro ⟨value, h⟩
    have htake := congrArg (List.takeWhile (· ≠ '=')) h
    rw [List.takeWhile_append_of_pos fun c hc => ?_, List.takeWhile_append_of_pos fun c hc => ?_] at htake
    · simpa using htake
    · exact decide_eq_true fun h => hname (h ▸ hc)
    · exact decide_eq_true fun h => he (h ▸ hc)
  · rintro rfl
    exact ⟨e.2, rfl⟩

theorem stringText_plain (s : List Char) (hs : s.length < 2 ^ 31) : stringText ⟨false, 0, -1, 0⟩ s = s := by
  have hwidth : ¬ Word.signed 32 s.length < 0 := by
    rw [Word.signed_of_lt hs]
    omega
  unfold stringText
  dsimp only
  rw [if_neg (by omega : ¬ ((0 : ℤ) ≤ -1 ∧ _)), if_neg hwidth, List.nil_append, List.take_length]

theorem putEntry_eq (h : (entryOf (name, value)).length < maxEnvLen) :
    putEntry name value = some (entryOf (name, value)) := by
  have hlen : name.length + (value.length + 1) < 256 := by
    unfold entryOf at h
    rw [List.length_append, List.length_cons] at h
    exact h
  unfold putEntry
  have hfirst : (takeSpec ['s', '=', '%', 's']).2 = 's' :: ['=', '%', 's'] := rfl
  have hsecond : (takeSpec ['s']).2 = 's' :: [] := rfl
  rw [libcKfmt_eq, kfmt_eq _ (by decide), rendering_percent hfirst, rendering_text (by decide),
    rendering_percent hsecond, rendering_nil]
  have hspec : (takeSpec ['s', '=', '%', 's']).1 = ⟨false, 0, -1, 0⟩ ∧
      (takeSpec ['s']).1 = ⟨false, 0, -1, 0⟩ := by decide
  have hdirective (args : Args) (k : ℕ) : directive args ⟨false, 0, -1, 0⟩ 's' k
      = (stringText ⟨false, 0, -1, 0⟩ (args.stringAt k), k + 1) := rfl
  rw [hspec.1, hspec.2, hdirective, hdirective]
  dsimp only
  have hstrings : Args.stringAt ⟨fun k => if k = 0 then 1 else 2, fun p => if p = 1 then name else value⟩
      = fun k => if k = 0 then name else value := by
    funext k
    cases k with
    | zero => rfl
    | succ k => rfl
  rw [hstrings]
  dsimp only
  rw [if_pos rfl, if_neg (Nat.succ_ne_zero 0), stringText_plain name (by omega),
    stringText_plain value (by omega),
    List.append_nil]
  exact if_pos h

/-! ## The array is a table -/

theorem getenv_eq (hkv : ∀ e ∈ kv, '=' ∉ e.1) (hname : '=' ∉ name) : getenv name (kv.map entryOf)
    = find kv name := by
  induction kv with
  | nil => rfl
  | cons e kv ih =>
      rw [List.map_cons, getenv, find, isVar_entryOf hname (hkv e List.mem_cons_self),
        ih fun e he => hkv e (List.mem_cons_of_mem _ he)]
      by_cases h : e.1 = name
      · subst h
        have hdrop : (entryOf e).drop (e.1.length + 1) = e.2 := by
          simp [entryOf, List.drop_append]
        rw [hdrop]
        simp
      · simp [h]

theorem setLoop_eq (hkv : ∀ e ∈ kv, '=' ∉ e.1) (hname : '=' ∉ name)
    (hshort : (entryOf (name, value)).length < maxEnvLen) :
    setLoop name value (kv.map entryOf) = some ((replace kv name value).map (List.map entryOf)) := by
  induction kv with
  | nil => rfl
  | cons e kv ih =>
      rw [List.map_cons, setLoop, replace, isVar_entryOf hname (hkv e List.mem_cons_self),
        ih fun e he => hkv e (List.mem_cons_of_mem _ he), putEntry_eq hshort]
      by_cases h : e.1 = name
      · simp [h]
      · cases replace kv name value with
        | none => simp [h]
        | some kv' => simp [h]

theorem setenv_eq (hkv : ∀ e ∈ kv, '=' ∉ e.1) (hname : '=' ∉ name)
    (hshort : (entryOf (name, value)).length < maxEnvLen) :
    setenv (kv.map entryOf) name value = some (if (assign maxEnv kv name value).1 then 0 else -1,
      (assign maxEnv kv name value).2.map entryOf) := by
  unfold setenv assign
  rw [setLoop_eq hkv hname hshort, Option.bind_some]
  cases replace kv name value with
  | some kv' => rfl
  | none =>
      dsimp only [Option.map_none]
      rw [List.length_map]
      by_cases hroom : maxEnv ≤ kv.length
      · rw [if_pos hroom, if_pos hroom]
        rfl
      · rw [if_neg hroom, if_neg hroom, putEntry_eq hshort, Option.map_some, List.map_append]
        rfl

/-! ## Runs -/

/-- The array holds the variables. -/
structure Keeps (env : Environ) (s : Vars) : Prop where
  table : ∃ kv, env = kv.map entryOf ∧ (∀ e ∈ kv, '=' ∉ e.1) ∧ Holds kv s
  room : s.count ≤ maxEnv

theorem keys_assign (hkv : ∀ e ∈ kv, '=' ∉ e.1) (hname : '=' ∉ name) :
    ∀ e ∈ (assign maxEnv kv name value).2, '=' ∉ e.1 := by
  unfold assign
  cases hreplace : replace kv name value with
  | some kv' =>
      intro e he
      have hkeys := keys_replace hreplace
      have hmem : e.1 ∈ kv.map Prod.fst := hkeys ▸ List.mem_map_of_mem he
      obtain ⟨e', he', heq⟩ := List.mem_map.mp hmem
      rw [← heq]
      exact hkv e' he'
  | none =>
      dsimp only
      split_ifs with hroom
      · exact hkv
      · intro e he
        rcases List.mem_append.mp he with he | he
        · exact hkv e he
        · rw [List.mem_singleton.mp he]
          exact hname

/-- An argument with an equals sign is an entry. -/
theorem entryOf_split (h : '=' ∈ arg) : ∃ value, arg.dropWhile (· ≠ '=') = '=' :: value ∧
    entryOf (arg.takeWhile (· ≠ '='), value) = arg ∧ '=' ∉ arg.takeWhile (· ≠ '=') := by
  have hjoin := List.takeWhile_append_dropWhile (p := (· ≠ '=')) (l := arg)
  have hnot : '=' ∉ arg.takeWhile (· ≠ '=') := fun hmem => by
    have := List.mem_takeWhile_imp hmem
    simp at this
  cases hdrop : arg.dropWhile (· ≠ '=') with
  | nil =>
      rw [hdrop, List.append_nil] at hjoin
      rw [hjoin] at hnot
      exact absurd h hnot
  | cons c value =>
      have hhead := List.head_dropWhile_not (· ≠ '=') (l := arg) (by
        rw [hdrop]
        exact List.cons_ne_nil c value)
      obtain rfl : c = '=' := by
        simp only [hdrop, List.head_cons] at hhead
        simpa using hhead
      refine ⟨value, rfl, ?_, hnot⟩
      unfold entryOf
      rw [← hdrop]
      exact hjoin

/-- One `export`. -/
theorem Keeps.export (h : Keeps env s) (argv : List (List Char))
    (hshort : ∀ arg ∈ argv, arg.length < maxLine) :
    ∃ env', builtinExport env argv = some ((exportTo s argv).1, env') ∧ Keeps env' (exportTo s argv).2 := by
  obtain ⟨⟨kv, rfl, hkv, hholds⟩, hroom⟩ := h
  unfold builtinExport exportTo
  cases harg : argv[1]? with
  | none => exact ⟨_, rfl, ⟨kv, rfl, hkv, hholds⟩, hroom⟩
  | some arg =>
      dsimp only
      by_cases hsign : '=' ∈ arg
      · obtain ⟨value, hdrop, hentry, hname⟩ := entryOf_split hsign
        have hlen : (entryOf (arg.takeWhile (· ≠ '='), value)).length < maxEnvLen := by
          rw [hentry]
          exact hshort arg (List.mem_of_getElem? harg)
        rw [if_pos hsign, hdrop]
        dsimp only
        rw [setenv_eq hkv hname hlen, List.drop_one, List.tail_cons]
        obtain ⟨hdone, hnext⟩ := hholds.assign maxEnv (arg.takeWhile (· ≠ '=')) value
        refine ⟨(assign maxEnv kv (arg.takeWhile (· ≠ '=')) value).2.map entryOf, ?_,
          ⟨_, rfl, keys_assign hkv hname, hnext⟩, Store.assign_count hroom _ _⟩
        rw [Option.map_some, ← hdone]
        dsimp only
        split_ifs with hyes hneg hneg
        · cases hneg
        · rfl
        · rfl
        · exact absurd (by decide) hneg
      · have hnil : arg.dropWhile (· ≠ '=') = [] := by
          rw [List.dropWhile_eq_nil_iff]
          intro c hc
          exact decide_eq_true fun heq => hsign (heq ▸ hc)
        rw [if_neg hsign, hnil]
        exact ⟨_, rfl, ⟨kv, rfl, hkv, hholds⟩, hroom⟩

theorem Keeps.run (h : Keeps env s) (calls : List (List (List Char)))
    (hshort : ∀ argv ∈ calls, ∀ arg ∈ argv, arg.length < maxLine) :
    ∃ env', runExports env calls = some ((runVars s calls).1, env') ∧ Keeps env' (runVars s calls).2 := by
  induction calls generalizing env s with
  | nil => exact ⟨env, rfl, h⟩
  | cons argv calls ih =>
      obtain ⟨env₁, hcall, hnext⟩ := h.export argv (hshort argv List.mem_cons_self)
      obtain ⟨env₂, hrest, hlast⟩ := ih hnext fun argv hargv => hshort argv (List.mem_cons_of_mem _ hargv)
      refine ⟨env₂, ?_, hlast⟩
      rw [runExports, hcall, Option.bind_some, hrest]
      rfl

theorem initEnv_keeps : Keeps initEnv initVars :=
  ⟨⟨initTable, by decide, by decide, by decide, fun _ => rfl, rfl⟩, by decide⟩

/-- After any number of `export` commands `getenv` finds what was last given to a name, and a name that was
refused for want of room has no value; there are never more than 32 variables, none of them twice. -/
theorem exports_kept (calls : List (List (List Char)))
    (hshort : ∀ argv ∈ calls, ∀ arg ∈ argv, arg.length < maxLine) :
    ∃ env, runExports initEnv calls = some ((runVars initVars calls).1, env) ∧
      (∀ name, '=' ∉ name → getenv name env = (runVars initVars calls).2.value name) ∧
      env.length = (runVars initVars calls).2.count ∧ env.length ≤ maxEnv ∧
      (env.map fun entry => entry.takeWhile (· ≠ '=')).Nodup := by
  obtain ⟨env, hrun, ⟨kv, rfl, hkv, hholds⟩, hroom⟩ := initEnv_keeps.run calls hshort
  refine ⟨_, hrun, fun name hname => ?_, ?_, ?_, ?_⟩
  · rw [getenv_eq hkv hname, hholds.value]
  · rw [List.length_map, hholds.count]
  · rw [List.length_map, hholds.count]
    exact hroom
  · have hkeys : (kv.map entryOf).map (fun entry => entry.takeWhile (· ≠ '=')) = kv.map Prod.fst := by
      rw [List.map_map]
      refine List.map_congr_left fun e he => ?_
      have hpos : ∀ c ∈ e.1, (decide (c ≠ '=')) = true := fun c hc => decide_eq_true fun heq =>
          hkv e he (heq ▸ hc)
      change (e.1 ++ '=' :: e.2).takeWhile (· ≠ '=') = e.1
      rw [List.takeWhile_append_of_pos hpos, List.takeWhile_cons_of_neg (by simp), List.append_nil]
    rw [hkeys]
    exact hholds.nodup

/-- A variable that is set twice. -/
def setTwice : List (List (List Char)) := [[['e'], ['A', '=', '1']], [['e'], ['A', '=', '2', '=']]]

theorem exports_kept_twice : ∃ env, runExports initEnv setTwice = some ([0, 0], env) ∧
    getenv ['A'] env = some ['2', '='] ∧ env.length = 4 := by
  obtain ⟨env, hrun, hget, hlen, -, -⟩ := exports_kept setTwice (by decide)
  have hresults : (runVars initVars setTwice).1 = [0, 0] := by decide
  have hvalue : (runVars initVars setTwice).2.value ['A'] = some ['2', '='] := by decide
  have hcount : (runVars initVars setTwice).2.count = 4 := by decide
  rw [hresults] at hrun
  exact ⟨env, hrun, (hget ['A'] (by decide)).trans hvalue, hlen.trans hcount⟩

end Ferrite.User
