import Mathlib.Data.List.Basic
/-!
# `Flower.Common.Process` — the command behind a socket, read from lsof

On macOS `get_command_name_by_socket` (`common/process.rs`) asks lsof which
process has a socket open,

    lsof "-c ^flower" -n -P -Fc -itcp@<addr>:<port>     (TCP)
    lsof "-c ^flower" -n -P -Fc -iudp:<port>            (anything else)

and reads its standard output: the first non-empty line that starts with
`c` is the command name, without the `c`.  It panics if lsof cannot be run
or writes something that is not UTF-8.

lsof is outside the repository, so what it writes for an argument list is
the model's input (`LsofRun`).  Its `-F` output is the format the loop
reads: one field per line, the field's identifier character first.  A
process set opens with its `p` field (the process identifier), then its `c`
field (the command), then one file set per open file, each opening with its
`f` field (the descriptor).  `ProcessSet` and `lsofOutput` write that
format, a field's value being on one line by construction (`Field`).

Rust's `str::split("\n")` is `List.splitOn '\n'`: both give the pieces
between the line breaks, the last one empty when the text ends with one.
`line.len() > 0` counts bytes and `split_at(1)` cuts at a byte, which for a
line starting with `c` is after its first character.

**Proved here.**

    on lsof's output for any list of process sets, the answer is the first
    process's command, and none when lsof lists no process
                                             (`getCommandNameBySocket_lsofOutput`)
    whatever lsof writes, a name returned is a whole line of it after its
    `c`, so it never runs across a line break
                                             (`getCommandNameBySocket_line`)
-/

namespace Flower.Common

/-- `session::Network`, as far as the match goes. -/
inductive Network
  | tcp
  | udp
  deriving DecidableEq, Repr

/-- The `-i` selector: protocol, address and port for TCP; for anything
else the protocol `udp` and the port only. -/
def lsofPattern (network : Network) (addr : String) (port : UInt16) : String :=
  match network with
  | .tcp => "-i" ++ "tcp" ++ "@" ++ addr ++ ":" ++ toString port
  | .udp => "-i" ++ "udp" ++ ":" ++ toString port

/-- The arguments of the lsof command, in order. -/
def lsofArgs (network : Network) (addr : String) (port : UInt16) : List String :=
  ["-c ^flower", "-n", "-P", "-Fc", lsofPattern network addr port]

/-- What running lsof gives: it could not be started, or its standard
output, `none` when that is not UTF-8. -/
inductive LsofRun
  | failed
  | stdout (text : Option (List Char))
  deriving DecidableEq, Repr

/-- How the function ends: with its answer, or in a panic with its message. -/
inductive Lookup
  | ok (name : Option (List Char))
  | panic (msg : String)
  deriving DecidableEq, Repr

/-- The loop over the lines: the first non-empty line that starts with `c`,
after its `c`. -/
def firstCommand : List (List Char) → Option (List Char)
  | [] => none
  | line :: lines =>
    if line.length > 0 && line.head? == some 'c' then some (line.drop 1) else firstCommand lines

/-- `get_command_name_by_socket`, given what lsof does for an argument list. -/
def getCommandNameBySocket (lsof : List String → LsofRun) (network : Network) (addr : String)
    (port : UInt16) : Lookup :=
  match lsof (lsofArgs network addr port) with
  | .failed => .panic "failed to execute process"
  | .stdout none => .panic "called unwrap on an Err value"
  | .stdout (some out) => .ok (firstCommand (out.splitOn '\n'))

/-! ## lsof's field output -/

/-- A field's value as `lsof -F` writes it: on one line. -/
structure Field where
  value : List Char
  no_newline : '\n' ∉ value

/-- A process set of `lsof -Fc` output: the process identifier, its command,
and the descriptor of each file it has open. -/
structure ProcessSet where
  pid : Field
  command : Field
  files : List Field

/-- The lines of a process set, each an identifier character and a value. -/
def ProcessSet.lines (s : ProcessSet) : List (List Char) :=
  ('p' :: s.pid.value) :: ('c' :: s.command.value) :: s.files.map (fun f => 'f' :: f.value)

/-- lsof's output: every line of every process set, each ended by a line
break. -/
def lsofOutput (sets : List ProcessSet) : List Char :=
  (sets.flatMap ProcessSet.lines).flatMap (· ++ ['\n'])

theorem ProcessSet.lines_no_newline (s : ProcessSet) : ∀ l ∈ s.lines, '\n' ∉ l := by
  have tagged : ∀ (c : Char) (f : Field), c ≠ '\n' → '\n' ∉ c :: f.value := fun c f hc h =>
    (List.mem_cons.mp h).elim (fun h => hc h.symm) f.no_newline
  simp only [ProcessSet.lines, List.mem_cons, List.mem_map]
  rintro l (rfl | rfl | ⟨f, -, rfl⟩) <;> exact tagged _ _ (by decide)

/-- Splitting text made of whole lines gives those lines back, then the
pieces of what follows. -/
theorem splitOn_lines_append (lines : List (List Char)) (h : ∀ l ∈ lines, '\n' ∉ l)
    (rest : List Char) :
    (lines.flatMap (· ++ ['\n']) ++ rest).splitOn '\n' = lines ++ rest.splitOn '\n' := by
  induction lines with
  | nil => rfl
  | cons l lines ih =>
    have hl : ∀ x ∈ l, ¬(x == '\n') = true := fun x hx hx' =>
      h l (List.mem_cons_self _ _) (beq_iff_eq.mp hx' ▸ hx)
    rw [List.flatMap_cons, List.append_assoc, List.append_assoc, List.singleton_append,
      List.splitOn, List.splitOnP_first _ l hl '\n' (beq_self_eq_true _), ← List.splitOn,
      ih fun l' hl' => h l' (List.mem_cons_of_mem _ hl'), List.cons_append]

/-- The loop stops at a process set's `c` line: its `p` line comes first. -/
theorem firstCommand_lines_append (s : ProcessSet) (rest : List (List Char)) :
    firstCommand (s.lines ++ rest) = some s.command.value := by
  simp [ProcessSet.lines, firstCommand]

/-- The loop over the lines of lsof's output finds the first set's command. -/
theorem firstCommand_lsofOutput (sets : List ProcessSet) :
    firstCommand ((lsofOutput sets).splitOn '\n') = sets.head?.map (·.command.value) := by
  cases sets with
  | nil => rfl
  | cons s sets =>
    rw [lsofOutput, List.flatMap_cons, List.flatMap_append,
      splitOn_lines_append _ s.lines_no_newline, firstCommand_lines_append]
    rfl

/-- **The command of the first process.**  When lsof writes its field output
for a list of process sets, the answer is the first set's command, and
none when the list is empty. -/
theorem getCommandNameBySocket_lsofOutput (lsof : List String → LsofRun) (network : Network)
    (addr : String) (port : UInt16) (sets : List ProcessSet)
    (h : lsof (lsofArgs network addr port) = .stdout (some (lsofOutput sets))) :
    getCommandNameBySocket lsof network addr port = .ok (sets.head?.map (·.command.value)) := by
  simp only [getCommandNameBySocket, h, firstCommand_lsofOutput]

/-- A shell's socket: lsof lists one process, `curl`, with two open files. -/
def curlSet : ProcessSet :=
  ⟨⟨"4242".toList, by decide⟩, ⟨"curl".toList, by decide⟩, [⟨"3".toList, by decide⟩, ⟨"5".toList, by decide⟩]⟩

theorem getCommandNameBySocket_lsofOutput_curl :
    (fun _ => .stdout (some (lsofOutput [curlSet])) : List String → LsofRun)
        (lsofArgs .tcp "127.0.0.1" 8080) = .stdout (some (lsofOutput [curlSet])) ∧
      getCommandNameBySocket (fun _ => .stdout (some (lsofOutput [curlSet]))) .tcp "127.0.0.1" 8080 =
        .ok (some "curl".toList) :=
  ⟨rfl, getCommandNameBySocket_lsofOutput _ .tcp "127.0.0.1" 8080 [curlSet] rfl⟩

/-! ## Whatever lsof writes -/

/-- No piece of a split text holds the separator. -/
theorem not_mem_of_mem_splitOn (sep : Char) :
    ∀ (xs : List Char), ∀ l ∈ xs.splitOn sep, sep ∉ l
  | [] => by simp
  | x :: xs => by
    have ih := not_mem_of_mem_splitOn sep xs
    obtain ⟨y, ys, hy⟩ := List.exists_cons_of_ne_nil (List.splitOnP_ne_nil (· == sep) xs)
    simp only [List.splitOn, List.splitOnP_cons, hy] at ih ⊢
    split
    · simpa using ih
    · rename_i hx
      simp only [List.modifyHead, List.mem_cons, forall_eq_or_imp, not_or] at ih ⊢
      exact ⟨⟨fun h => hx (by simp [h]), ih.1⟩, ih.2⟩

theorem mem_of_firstCommand {lines : List (List Char)} {name : List Char}
    (h : firstCommand lines = some name) : 'c' :: name ∈ lines := by
  induction lines with
  | nil => cases h
  | cons line lines ih =>
    rw [firstCommand] at h
    split at h
    · rename_i hc
      cases line with
      | nil => simp at hc
      | cons c rest =>
        obtain rfl : c = 'c' := by simpa using hc
        obtain rfl : rest = name := Option.some.inj h
        exact List.mem_cons_self _ _
    · exact List.mem_cons_of_mem _ (ih h)

/-- **A name is a whole line.**  Whatever lsof writes, a name returned is
one line of its output after the `c`, and holds no line break. -/
theorem getCommandNameBySocket_line (lsof : List String → LsofRun) (network : Network)
    (addr : String) (port : UInt16) (name : List Char)
    (h : getCommandNameBySocket lsof network addr port = .ok (some name)) :
    ∃ out, lsof (lsofArgs network addr port) = .stdout (some out) ∧
      'c' :: name ∈ out.splitOn '\n' ∧ '\n' ∉ name := by
  unfold getCommandNameBySocket at h
  split at h
  · cases h
  · cases h
  · rename_i out hout
    have hm := mem_of_firstCommand (Lookup.ok.inj h)
    exact ⟨out, hout, hm, fun hn => not_mem_of_mem_splitOn '\n' out _ hm (List.mem_cons_of_mem _ hn)⟩

theorem getCommandNameBySocket_line_curl :
    getCommandNameBySocket (fun _ => .stdout (some (lsofOutput [curlSet]))) .udp "" 53 =
        .ok (some "curl".toList) ∧
      '\n' ∉ "curl".toList :=
  ⟨rfl, (getCommandNameBySocket_line (fun _ => .stdout (some (lsofOutput [curlSet]))) .udp "" 53
    "curl".toList rfl).elim fun _ h => h.2.2⟩

end Flower.Common
