import OCamlStudy.NanoOs.Shell
import OCamlStudy.OCaml.Split

/-! # The reference shell

What the shell is for, as an interpreter of lines over a finite map: each name has
a content and the sector where it starts, the first above the directory and every
file at the time it was written. The shell of the kernel has its own tokenizer,
dispatch and file system; here is only what a line means.
-/

namespace OCamlStudy.NanoOs.Reference

open OCaml

inductive Verb where
  | ls
  | cat
  | write
  | touch
  | rm
  | help
  deriving DecidableEq

/-- The word is the lower-case verb, but for the case of its letters. -/
def Names (word verb : Bytes) : Prop :=
  List.Forall₂ (fun c letter => c = letter ∨ c + 32 = letter) word verb

instance (word verb : Bytes) : Decidable (Names word verb) :=
  inferInstanceAs (Decidable (List.Forall₂ _ word verb))

def verb (word : Bytes) : Option Verb :=
  if Names word (bytes "ls") then some .ls
  else if Names word (bytes "cat") then some .cat
  else if Names word (bytes "write") then some .write
  else if Names word (bytes "touch") then some .touch
  else if Names word (bytes "rm") then some .rm
  else if Names word (bytes "help") then some .help
  else none

/-- A line is a command if it starts with a verb and has the arguments of that verb. -/
def command (line : Bytes) : Shell.Command :=
  match words 32 line with
  | [] => .empty
  | word :: args =>
    match verb word, args with
    | some .ls, [] => .ls
    | some .cat, [filename] => .cat filename
    | some .write, filename :: rest => .write filename rest
    | some .touch, [filename] => .touch filename
    | some .rm, [filename] => .rm filename
    | some .help, [] => .help
    | _, _ => .unknown line

def fileToken (line : Bytes) : Option Bytes :=
  match command line with
  | .cat filename | .write filename _ | .touch filename | .rm filename => some filename
  | .empty | .ls | .help | .unknown _ => none

structure File where
  start : ℕ
  data : Bytes

abbrev Files := Hashtbl Bytes File

def sectors (data : Bytes) : ℕ := (data.length + 511) / 512

/-- The first sector above the directory and every live file. -/
def top (files : Files) : ℕ :=
  files.entries.foldr (fun file acc => max (file.2.start + sectors file.2.data) acc) 5

/-- There are 32 files already, or no room on the 2048 sectors above the highest live file. -/
def Full (files : Files) (filename data : Bytes) : Prop :=
  (filename ∉ files ∧ 32 ≤ files.keys.length) ∨ 2048 < top files + sectors data

instance (files : Files) (filename data : Bytes) : Decidable (Full files filename data) :=
  inferInstanceAs (Decidable (_ ∨ _))

def store (files : Files) (filename data : Bytes) : Files :=
  files.insert filename ⟨top files, data⟩

/-- An answer is a text, or the names of the files in no particular order. -/
inductive Answer where
  | text (reply : Bytes)
  | listing (names : List Bytes)

/-- A reply that gives the answer; a listing is compared as a set of lines. -/
def Answer.Matches : Answer → Bytes → Prop
  | .text expected, reply => reply = expected
  | .listing names, reply =>
    ∀ line, line ∈ reply.splitOn 10 ↔ ∃ name ∈ names, line ∈ name.splitOn 10

/-- The answer to a command and the files after it. -/
def act (files : Files) : Shell.Command → Answer × Files
  | .empty => (.text [], files)
  | .ls =>
    (if files.keys = [] then .text (bytes "Directory is empty.") else .listing files.keys, files)
  | .cat filename =>
    match files.lookup filename with
    | some file => (.text file.data, files)
    | none => (.text (bytes "Error: File not found: " ++ filename), files)
  | .write filename rest =>
    let data := (bytes " ").intercalate rest
    if Full files filename data then (.text (bytes "Error: Disk full."), files)
    else if filename ∈ files then
      (.text (bytes "File overwritten successfully."), store files filename data)
    else (.text (bytes "File created successfully."), store files filename data)
  | .touch filename =>
    if filename ∈ files then
      (.text (bytes "Error: File " ++ filename ++ bytes " already exists."), files)
    else if Full files filename [] then (.text (bytes "Error: Touch failed"), files)
    else (.text (bytes "File created."), store files filename [])
  | .rm filename =>
    if filename ∈ files then (.text (bytes "File deleted."), files.erase filename)
    else (.text (bytes "Error: File not found: " ++ filename), files)
  | .help => (.text Shell.helpMsg, files)
  | .unknown line =>
    (.text (bytes "Unknown command: " ++ line ++ bytes "\nType 'help' for usage."), files)

def eval (files : Files) (line : Bytes) : Answer × Files := act files (command line)

def evalAll (files : Files) : List Bytes → List Answer × Files
  | [] => ([], files)
  | line :: lines =>
    let (answer, files) := eval files line
    let (answers, files) := evalAll files lines
    (answer :: answers, files)

theorem lowercaseByte_eq_iff (c : UInt8) {letter : UInt8} (h : 97 ≤ letter ∧ letter ≤ 122) :
    lowercaseByte c = letter ↔ c = letter ∨ c + 32 = letter := by
  simp only [lowercaseByte, ← UInt8.toNat_inj, UInt8.le_iff_toNat_le, UInt8.toNat_add] at h ⊢
  have hlt := c.toNat_lt
  have hletters : UInt8.toNat 97 = 97 ∧ UInt8.toNat 122 = 122 := ⟨rfl, rfl⟩
  have hcase : UInt8.toNat 65 = 65 ∧ UInt8.toNat 90 = 90 ∧ UInt8.toNat 32 = 32 := ⟨rfl, rfl, rfl⟩
  split_ifs with hc
  · rw [UInt8.toNat_add]
    omega
  · omega

def IsVerb (verb : Bytes) : Prop := ∀ letter ∈ verb, 97 ≤ letter ∧ letter ≤ 122

instance (verb : Bytes) : Decidable (IsVerb verb) :=
  List.decidableBAll _ verb

theorem lowercaseAscii_eq_iff {verb : Bytes} (h : IsVerb verb) (word : Bytes) :
    lowercaseAscii word = verb ↔ Names word verb := by
  rw [Names]
  induction verb generalizing word with
  | nil => simp [lowercaseAscii]
  | cons letter verb ih =>
    cases word with
    | nil => simp [lowercaseAscii]
    | cons c word =>
      rw [List.forall₂_cons, ← lowercaseByte_eq_iff c (h letter (by simp)),
        ← ih fun d hd => h d (by simp [hd])]
      exact List.cons_eq_cons

/-- The shell reads a line as the reference does. -/
theorem parse_eq_command (line : Bytes) : Shell.parse line = command line := by
  unfold Shell.parse command
  rw [filter_splitOn_eq_words]
  cases words 32 line with
  | nil => rfl
  | cons word args =>
    simp only [lowercaseAscii_eq_iff (by decide : IsVerb (bytes "ls")),
      lowercaseAscii_eq_iff (by decide : IsVerb (bytes "cat")),
      lowercaseAscii_eq_iff (by decide : IsVerb (bytes "write")),
      lowercaseAscii_eq_iff (by decide : IsVerb (bytes "touch")),
      lowercaseAscii_eq_iff (by decide : IsVerb (bytes "rm")),
      lowercaseAscii_eq_iff (by decide : IsVerb (bytes "help"))]
    -- The verb is the same; what is left is the number of arguments.
    rcases args with _ | ⟨filename, _ | ⟨next, rest⟩⟩ <;> dsimp only [verb] <;> split_ifs <;>
      first | rfl | contradiction

end OCamlStudy.NanoOs.Reference
