import OCamlStudy.NanoOs.FileMap

/-! # The shell

The commands of the shell as they are parsed, what each of them does to the file
system, and its reply.
-/

namespace OCamlStudy.NanoOs

open OCaml Program

namespace Shell

def helpMsg : Bytes :=
  bytes ("Available commands:\n" ++
    "  ls                  - List files\n" ++
    "  cat <file>          - Read file content\n" ++
    "  write <file> <msg>  - Create or overwrite file\n" ++
    "  touch <file>        - Create empty file\n" ++
    "  rm <file>           - Delete file\n" ++
    "  help                - Show this help")

/-- The patterns of `eval`. -/
inductive Command where
  | empty
  | ls
  | cat (filename : Bytes)
  | write (filename : Bytes) (words : List Bytes)
  | touch (filename : Bytes)
  | rm (filename : Bytes)
  | help
  | unknown (cmdStr : Bytes)
  deriving DecidableEq

def parse (cmdStr : Bytes) : Command :=
  match (cmdStr.splitOn 32).filter (· ≠ []) with
  | [] => .empty
  | command :: args =>
    let command := lowercaseAscii command
    if command = bytes "ls" then if args = [] then .ls else .unknown cmdStr
    else if command = bytes "cat" then
      match args with
      | [filename] => .cat filename
      | _ => .unknown cmdStr
    else if command = bytes "write" then
      match args with
      | filename :: words => .write filename words
      | _ => .unknown cmdStr
    else if command = bytes "touch" then
      match args with
      | [filename] => .touch filename
      | _ => .unknown cmdStr
    else if command = bytes "rm" then
      match args with
      | [filename] => .rm filename
      | _ => .unknown cmdStr
    else if command = bytes "help" then if args = [] then .help else .unknown cmdStr
    else .unknown cmdStr

def lsReply (files : List Bytes) : Bytes :=
  if files = [] then bytes "Directory is empty." else (bytes "\n").intercalate files

def catReply (filename : Bytes) : Except FsError Bytes → Bytes
  | .ok content => content
  | .error (.fileNotFound _) => bytes "Error: File not found: " ++ filename
  | .error _ => bytes "Error: Read failed"

def writeReply (existedBefore : Bool) : Except FsError Unit → Bytes
  | .ok () =>
    if existedBefore then bytes "File overwritten successfully."
    else bytes "File created successfully."
  | .error .noSpace => bytes "Error: Disk full."
  | .error _ => bytes "Error: Write failed."

def touchReply (filename : Bytes) : Except FsError Unit → Bytes
  | .ok () => bytes "File created."
  | .error (.fileExists _) => bytes "Error: File " ++ filename ++ bytes " already exists."
  | .error _ => bytes "Error: Touch failed"

def rmReply (filename : Bytes) : Except FsError Unit → Bytes
  | .ok () => bytes "File deleted."
  | .error (.fileNotFound _) => bytes "Error: File not found: " ++ filename
  | .error _ => bytes "Error: Delete failed"

def concatWords (words : List Bytes) : Bytes := (bytes " ").intercalate words

def unknownReply (cmdStr : Bytes) : Bytes :=
  bytes "Unknown command: " ++ cmdStr ++ bytes "\nType 'help' for usage."

def Command.perform : Command → FsProg Bytes
  | .empty => return []
  | .ls => do
    let files ← NanoOs.ls
    return lsReply files
  | .cat filename => do
    let res ← readFile filename
    return catReply filename res
  | .write filename words => do
    let content := concatWords words
    let files ← NanoOs.ls
    let existedBefore := files.any (· = filename)
    let res ← writeFile filename content
    return writeReply existedBefore res
  | .touch filename => do
    let res ← createFile filename []
    return touchReply filename res
  | .rm filename => do
    let res ← deleteFile filename
    return rmReply filename res
  | .help => return helpMsg
  | .unknown cmdStr => return unknownReply cmdStr

def eval (cmdStr : Bytes) : FsProg Bytes := (parse cmdStr).perform

def evalAll : List Bytes → FsProg (List Bytes)
  | [] => return []
  | cmdStr :: cmds => do
    let reply ← eval cmdStr
    let replies ← evalAll cmds
    return reply :: replies

end Shell

end OCamlStudy.NanoOs
