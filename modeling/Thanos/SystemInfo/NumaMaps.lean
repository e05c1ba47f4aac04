import Mathlib.Data.List.Induction
import Mathlib.Data.List.Infix
import Mathlib.Logic.Function.Basic
import Thanos.Library.DoWhile
import Thanos.Library.TextScan
import Thanos.SystemInfo.MemoryInfo

/-!
# Lines of `numa_maps`

A line of `/proc/<pid>/numa_maps` starts with an address and a policy, and goes on with any number
of parameters. `parse_line` cuts the line at its spaces one after another and hands the tokens
to `parse_parameter`.

* **Parameters** (`parseParameter_text`): a parameter is stored in its field and nowhere else.
* **Lines** (`parsesLine_iff`): there is no space behind the last parameter, and it is never
  parsed.
-/

namespace Thanos

open TextScan

/-! ### Parameters -/

/-- `mem_region_numa_maps`, as far as a line of the file goes. -/
structure MemRegionNumaMaps where
  address : Addr
  /-- The memory policy in effect for the range. -/
  policy : List Char
  /-- `pages_per_node_`, which is accessed without a check of the node. -/
  pagesPerNode : ℤ → UInt64
  /-- The file backing the range. -/
  file : List Char
  heap : Bool
  stack : Bool
  huge : Bool
  anon : UInt64
  dirty : UInt64
  mapped : UInt64
  mapmax : UInt64
  swapcache : UInt64
  writeback : UInt64
  /-- Size of each memory page. -/
  kernelpagesizeKB : UInt64

/-- The values before a line is parsed. -/
def MemRegionNumaMaps.new : MemRegionNumaMaps where
  address := 0
  policy := []
  pagesPerNode := fun _ => 0
  file := []
  heap := false
  stack := false
  huge := false
  anon := 0
  dirty := 0
  mapped := 0
  mapmax := 0
  swapcache := 0
  writeback := 0
  kernelpagesizeKB := 4

/-- The fields for a number of pages, or of something else. -/
inductive CountField
  | anon
  | dirty
  | mapped
  | mapmax
  | swapcache
  | writeback
  | kernelpagesizeKB
  deriving DecidableEq

namespace CountField

/-- The name in the file. -/
def key : CountField → List Char
  | anon => ['a', 'n', 'o', 'n']
  | dirty => ['d', 'i', 'r', 't', 'y']
  | mapped => ['m', 'a', 'p', 'p', 'e', 'd']
  | mapmax => ['m', 'a', 'p', 'm', 'a', 'x']
  | swapcache => ['s', 'w', 'a', 'p', 'c', 'a', 'c', 'h', 'e']
  | writeback => ['w', 'r', 'i', 't', 'e', 'b', 'a', 'c', 'k']
  | kernelpagesizeKB => ['k', 'e', 'r', 'n', 'e', 'l', 'p', 'a', 'g', 'e', 's', 'i', 'z', 'e', '_',
      'k', 'B']

/-- The fields in the order in which `parse_parameter` tries them. -/
def all : List CountField :=
  [anon, dirty, mapped, mapmax, swapcache, writeback, kernelpagesizeKB]

def get (r : MemRegionNumaMaps) : CountField → UInt64
  | anon => r.anon
  | dirty => r.dirty
  | mapped => r.mapped
  | mapmax => r.mapmax
  | swapcache => r.swapcache
  | writeback => r.writeback
  | kernelpagesizeKB => r.kernelpagesizeKB

def set (r : MemRegionNumaMaps) (value : UInt64) : CountField → MemRegionNumaMaps
  | anon => { r with anon := value }
  | dirty => { r with dirty := value }
  | mapped => { r with mapped := value }
  | mapmax => { r with mapmax := value }
  | swapcache => { r with swapcache := value }
  | writeback => { r with writeback := value }
  | kernelpagesizeKB => { r with kernelpagesizeKB := value }

end CountField

/-- `STACK_STR`. -/
def stackStr : List Char := ['s', 't', 'a', 'c', 'k']

/-- `HEAP_STR`. -/
def heapStr : List Char := ['h', 'e', 'a', 'p']

/-- `HUGE_STR`. -/
def hugeStr : List Char := ['h', 'u', 'g', 'e']

/-- `file=`. -/
def fileStr : List Char := ['f', 'i', 'l', 'e', '=']

/-- `sscanf` for a field and a number. -/
def scanCount (parameter : List Char) (field : CountField) : Option UInt64 :=
  match sscanf (literal (field.key ++ ['=']) ++ [.int]) parameter with
  | .int value :: _ => some (.ofInt value)
  | _ => none

/-- The tests for a field and a number, one after another. -/
def parseCount (parameter : List Char) (r : MemRegionNumaMaps) :
    List CountField → Bool × MemRegionNumaMaps
  | [] => (false, r)
  | field :: fields =>
    match scanCount parameter field with
    | some value => (true, field.set r value)
    | none => parseCount parameter r fields

/-- The number of pages on a node, 0 if it cannot be read. -/
def pagesOf : List Scanned → ℤ
  | .int value :: _ => value
  | _ => 0

/-- `parse_parameter`. -/
def parseParameter (parameter : List Char) (r : MemRegionNumaMaps) : Bool × MemRegionNumaMaps :=
  match sscanf [.char 'N', .int, .char '=', .int] parameter with
  | .int node :: values =>
    (true, { r with
      pagesPerNode := Function.update r.pagesPerNode node (.ofInt (pagesOf values)) })
  | _ =>
    match sscanf (literal fileStr ++ [.word]) parameter with
    | .word filename :: _ => (true, { r with file := filename })
    | _ =>
      if stackStr <:+: parameter then (true, { r with stack := true })
      else if heapStr <:+: parameter then (true, { r with heap := true })
      else if hugeStr <:+: parameter then (true, { r with huge := true })
      else parseCount parameter r CountField.all

/-- A parameter that the file describes. -/
inductive NumaParameter
  | pages (node n : ℕ)
  | file (filename : List Char)
  | stack
  | heap
  | huge
  | count (field : CountField) (n : ℕ)

/-- The fields of the parameters. -/
inductive NumaField
  | pages (node : ℕ)
  | file
  | stack
  | heap
  | huge
  | count (field : CountField)

namespace NumaParameter

/-- A parameter as it is printed. -/
def text : NumaParameter → List Char
  | pages node n => 'N' :: Nat.toDigits 10 node ++ '=' :: Nat.toDigits 10 n
  | file filename => fileStr ++ filename
  | stack => stackStr
  | heap => heapStr
  | huge => hugeStr
  | count field n => field.key ++ '=' :: Nat.toDigits 10 n

/-- Numbers fit an `int`, and the name of a file is one word. -/
def Valid : NumaParameter → Prop
  | pages node n => node < 2 ^ 31 ∧ n < 2 ^ 31
  | file filename => filename ≠ [] ∧ ∀ c ∈ filename, TextStream.isSpace c = false
  | stack => True
  | heap => True
  | huge => True
  | count _ n => n < 2 ^ 31

def field : NumaParameter → NumaField
  | pages node _ => .pages node
  | file _ => .file
  | stack => .stack
  | heap => .heap
  | huge => .huge
  | count field _ => .count field

/-- The value of the parameter is in its field. -/
def InField (r : MemRegionNumaMaps) : NumaParameter → Prop
  | pages node n => r.pagesPerNode node = .ofNat n
  | file filename => r.file = filename
  | stack => r.stack = true
  | heap => r.heap = true
  | huge => r.huge = true
  | count field n => field.get r = .ofNat n

/-- The fields after the value has been put into its one. -/
def store (r : MemRegionNumaMaps) : NumaParameter → MemRegionNumaMaps
  | pages node n =>
    { r with pagesPerNode := Function.update r.pagesPerNode node (.ofNat n) }
  | file filename => { r with file := filename }
  | stack => { r with stack := true }
  | heap => { r with heap := true }
  | huge => { r with huge := true }
  | count field n => field.set r (.ofNat n)

end NumaParameter

/-! ### What is done with a parameter -/

section Parameters

variable {p q : NumaParameter} {r : MemRegionNumaMaps} {field field' : CountField} {n : ℕ}

theorem inField_store : p.InField (p.store r) := by
  cases p with
  | pages node n => exact Function.update_self ..
  | file filename => rfl
  | stack => rfl
  | heap => rfl
  | huge => rfl
  | count field n => cases field <;> rfl

theorem get_set_of_ne {value : UInt64} (h : field' ≠ field) :
    field'.get (field.set r value) = field'.get r := by
  cases field <;> cases field' <;> first | rfl | exact absurd rfl h

theorem inField_store_of_ne (h : q.field ≠ p.field) (hp : p.InField r) :
    p.InField (q.store r) := by
  cases q with
  | pages node n =>
    cases p with
    | pages node' n' =>
      have hne : (node' : ℤ) ≠ node := fun heq =>
        h (congrArg NumaField.pages (Int.ofNat.inj heq).symm)
      exact (Function.update_of_ne hne ..).trans hp
    | _ => exact hp
  | file filename =>
    cases p with
    | file filename' => exact absurd rfl h
    | _ => exact hp
  | stack =>
    cases p with
    | stack => exact absurd rfl h
    | _ => exact hp
  | heap =>
    cases p with
    | heap => exact absurd rfl h
    | _ => exact hp
  | huge =>
    cases p with
    | huge => exact absurd rfl h
    | _ => exact hp
  | count field n =>
    cases p with
    | count field' n' =>
      have hne : field' ≠ field := fun heq => h (congrArg NumaField.count heq.symm)
      exact (get_set_of_ne hne).trans hp
    | _ => cases field <;> exact hp

/-- Parameters of different fields do not overwrite each other. -/
theorem inField_foldl_store {parameters : List NumaParameter}
    (hnodup : (parameters.map NumaParameter.field).Nodup) (hp : p ∈ parameters) :
    p.InField (parameters.foldl (fun r p => p.store r) r) := by
  induction parameters using List.reverseRecOn with
  | nil => exact absurd hp List.not_mem_nil
  | append_singleton parameters q ih =>
    rw [List.map_append, List.nodup_append] at hnodup
    obtain ⟨hnodup, -, hne⟩ := hnodup
    rw [List.foldl_append]
    obtain hp | hp := List.mem_append.mp hp
    · refine inField_store_of_ne (fun heq => ?_) (ih hnodup hp)
      exact hne p.field (List.mem_map_of_mem hp) q.field (List.mem_singleton.mpr rfl) heq.symm
    · rw [List.mem_singleton.mp hp]
      exact inField_store

/-! ### Recognition -/

theorem not_mem_key : '=' ∉ field.key := by
  cases field <;> decide

theorem key_inj (h : field.key = field'.key) : field = field' := by
  cases field <;> cases field' <;> first | rfl | exact absurd h (by decide)

/-- A number at the end of a parameter. -/
theorem sscanf_int (hn : n < 2 ^ 31) : sscanf [.int] (Nat.toDigits 10 n) = [.int n] := by
  have hrest : ∀ c ∈ ([] : List Char).head?, c.isDigit = false := by simp
  have hscan := scanInt_toDigits (n := n) hrest
  rw [List.append_nil, toInt_natCast hn] at hscan
  rw [sscanf, hscan]
  rfl

/-- A field is told by what stands before the equals sign. -/
theorem scanCount_text (hn : n < 2 ^ 31) :
    scanCount (field'.key ++ '=' :: Nat.toDigits 10 n) field =
      if field = field' then some (.ofNat n) else none := by
  by_cases heq : field = field'
  · subst heq
    have htext : field.key ++ '=' :: Nat.toDigits 10 n =
        (field.key ++ ['=']) ++ Nat.toDigits 10 n := by simp
    rw [if_pos rfl, scanCount, htext, sscanf_literal, sscanf_int hn]
    exact congrArg some (ofInt_natCast hn)
  · have hprefix : ¬ field.key ++ ['='] <+: field'.key ++ '=' :: Nat.toDigits 10 n :=
      fun hprefix => heq (key_inj (eq_of_separated not_mem_key not_mem_key hprefix))
    rw [if_neg heq, scanCount, sscanf_literal_of_not_start hprefix]

theorem parseCount_text (hn : n < 2 ^ 31) :
    parseCount (field.key ++ '=' :: Nat.toDigits 10 n) r CountField.all =
      (true, field.set r (.ofNat n)) := by
  cases field <;> simp [CountField.all, parseCount, scanCount_text hn]

theorem isDigit_toDigits : ∀ c ∈ Nat.toDigits 10 n, c.isDigit = true := fun _ hc =>
  Nat.isDigit_of_mem_toDigits (by decide) (by decide) hc

/-- None of the names is in a number. -/
theorem not_infix_toDigits {sub : List Char} {c : Char} (hc : c ∈ sub)
    (hdigit : c.isDigit = false) : ¬ sub <:+: Nat.toDigits 10 n := by
  intro hinfix
  have hmem : c ∈ Nat.toDigits 10 n := hinfix.mem hc
  exact Bool.false_ne_true (hdigit.symm.trans (isDigit_toDigits c hmem))

theorem not_infix_count {sub : List Char} (hsub : sub = stackStr ∨ sub = heapStr ∨ sub = hugeStr) :
    ¬ sub <:+: field.key ++ '=' :: Nat.toDigits 10 n := by
  have hsep : '=' ∉ sub := by rcases hsub with rfl | rfl | rfl <;> decide
  have hdigits : ¬ sub <:+: Nat.toDigits 10 n := by
    rcases hsub with rfl | rfl | rfl
    · exact not_infix_toDigits List.mem_cons_self (by decide)
    · exact not_infix_toDigits List.mem_cons_self (by decide)
    · exact not_infix_toDigits List.mem_cons_self (by decide)
  have hkey : ¬ sub <:+: field.key := by
    rcases hsub with rfl | rfl | rfl <;> cases field <;> decide
  rw [infix_append_cons_iff hsep]
  exact not_or.mpr ⟨hkey, hdigits⟩

/-- **Parameters.** -/
theorem parseParameter_text (hp : p.Valid) : parseParameter p.text r = (true, p.store r) := by
  cases p with
  | pages node n =>
    obtain ⟨hnode, hn⟩ := hp
    have hsep : ∀ c ∈ ('=' :: Nat.toDigits 10 n).head?, c.isDigit = false := by
      rintro c hc
      obtain rfl := Option.some.inj hc
      rfl
    have hscan : sscanf [.char 'N', .int, .char '=', .int] (NumaParameter.pages node n).text =
        [.int node, .int n] := by
      change sscanf [.int, .char '=', .int] (Nat.toDigits 10 node ++ '=' :: Nat.toDigits 10 n) = _
      rw [sscanf, scanInt_toDigits hsep, toInt_natCast hnode]
      change .int node :: sscanf [.int] (Nat.toDigits 10 n) = _
      rw [sscanf_int hn]
    rw [parseParameter, hscan]
    simp only [pagesOf, ofInt_natCast hn]
    rfl
  | file filename =>
    obtain ⟨hne, hname⟩ := hp
    have hscan : sscanf (literal fileStr ++ [.word]) (fileStr ++ filename) = [.word filename] := by
      rw [sscanf_literal, sscanf, scanWord_eq hne hname]
      rfl
    have hnode : sscanf [.char 'N', .int, .char '=', .int] (fileStr ++ filename) = [] := rfl
    rw [NumaParameter.text, parseParameter, hnode, hscan]
    rfl
  | stack => rfl
  | heap => rfl
  | huge => rfl
  | count field n =>
    have hnode : sscanf [.char 'N', .int, .char '=', .int]
        (field.key ++ '=' :: Nat.toDigits 10 n) = [] := by
      cases field <;> rfl
    have hfile : sscanf (literal fileStr ++ [.word]) (field.key ++ '=' :: Nat.toDigits 10 n) =
        [] := by
      cases field <;> rfl
    rw [NumaParameter.text, parseParameter, hnode, hfile]
    simp only
    rw [if_neg (not_infix_count (.inl rfl)), if_neg (not_infix_count (.inr (.inl rfl))),
      if_neg (not_infix_count (.inr (.inr rfl))), parseCount_text hp]
    rfl

end Parameters

/-! ### Lines -/

/-- `SEP`. -/
def sep : Char := ' '

/-- What `parse_line` does before the loop: the address and the policy are read. -/
def parseHead (line : List Char) (r : MemRegionNumaMaps) : List Char × MemRegionNumaMaps :=
  let pos := find sep line
  let token := substr line pos
  let r :=
    match sscanf [.hex] token with
    | .hex address :: _ => { r with address := address }
    | _ => r
  let line := eraseThrough line pos
  let pos := find sep line
  (eraseThrough line pos, { r with policy := substr line pos })

/-- One iteration of the loop. -/
def parseNext (s : List Char × MemRegionNumaMaps) : Bool × List Char × MemRegionNumaMaps :=
  match find sep s.1 with
  | none => (false, s)
  | some pos =>
    (true, eraseThrough s.1 (some pos), (parseParameter (substr s.1 (some pos)) s.2).2)

/-- `parse_line`, for a number of iterations. -/
def parseLine (fuel : ℕ) (line : List Char) (r : MemRegionNumaMaps) : Option MemRegionNumaMaps :=
  (doWhile parseNext fuel (parseHead line r)).map Prod.snd

/-- The token that an iteration hands to `parse_parameter`. -/
def tokenAt (s : List Char × MemRegionNumaMaps) : List Char :=
  substr s.1 (find sep s.1)

/-- A line of the file: an address, a policy and parameters, with a space between them. -/
structure NumaMapsLine where
  address : List Char
  policy : List Char
  parameters : List (List Char)
  address_ne : address ≠ []
  address_hex : ∀ c ∈ address, isHexDigit c = true
  address_lt : hexValue address < 2 ^ 64
  sep_not_mem_policy : sep ∉ policy
  sep_not_mem : ∀ parameter ∈ parameters, sep ∉ parameter

namespace NumaMapsLine

variable (line : NumaMapsLine)

/-- The line as it is printed. -/
def text : List Char :=
  line.address ++ sep :: (line.policy ++ line.parameters.flatMap fun parameter => sep :: parameter)

/-- The values of the address and the policy. -/
def head (r : MemRegionNumaMaps) : MemRegionNumaMaps :=
  { r with address := .ofNat (hexValue line.address), policy := line.policy }

end NumaMapsLine

/-- `parse_line` applies `parse_parameter` to each parameter once and in order, and the address,
the policy and the parameters end up in their fields. -/
def ParsesLine (line : NumaMapsLine) (r : MemRegionNumaMaps) : Prop :=
  HasTrace parseNext (parseHead line.text r) fun trace s =>
    trace.map tokenAt = line.parameters ∧ s.2.address = .ofNat (hexValue line.address) ∧
      s.2.policy = line.policy ∧
      ∀ parameters : List NumaParameter, line.parameters = parameters.map NumaParameter.text →
        (parameters.map NumaParameter.field).Nodup → (∀ p ∈ parameters, p.Valid) →
        ∀ p ∈ parameters, p.InField s.2

section Lines

variable {line : NumaMapsLine} {r : MemRegionNumaMaps} {token : List Char}
  {parameters : List (List Char)}

/-- The loop has the given trace and ends in the given state. -/
def RunsTo (s : List Char × MemRegionNumaMaps) (tokens : List (List Char))
    (r : MemRegionNumaMaps) : Prop :=
  ∃ trace s', (∀ P, HasTrace parseNext s P ↔ P trace s') ∧ trace.map tokenAt = tokens ∧ s'.2 = r

theorem runsTo_of_not_mem (h : sep ∉ token) : RunsTo (token, r) [] r := by
  have hleaves : parseNext (token, r) = (false, token, r) := by
    rw [parseNext, find_eq_none_iff.mpr h]
  exact ⟨[], (token, r), fun P => hasTrace_of_leaves hleaves, rfl, rfl⟩

theorem runsTo_cons {rest : List Char} {tokens : List (List Char)} {r' : MemRegionNumaMaps}
    (h : sep ∉ token) (hrest : RunsTo (rest, (parseParameter token r).2) tokens r') :
    RunsTo (token ++ sep :: rest, r) (token :: tokens) r' := by
  obtain ⟨trace, s', htrace, htokens, hr'⟩ := hrest
  have hcont : Continues parseNext (token ++ sep :: rest, r)
      (rest, (parseParameter token r).2) := by
    rw [Continues, parseNext, find_append h]
    simp [eraseThrough, substr]
  refine ⟨(token ++ sep :: rest, r) :: trace, s', fun P => ?_, ?_, hr'⟩
  · rw [hasTrace_of_continues hcont]
    exact htrace _
  · rw [List.map_cons, htokens, tokenAt, find_append h]
    simp [substr]

/-- All tokens but the last one are parsed. -/
theorem runsTo_tokens (h : sep ∉ token) (hparameters : ∀ parameter ∈ parameters, sep ∉ parameter) :
    RunsTo (token ++ parameters.flatMap fun parameter => sep :: parameter, r)
      (token :: parameters).dropLast
      ((token :: parameters).dropLast.foldl (fun r parameter => (parseParameter parameter r).2)
        r) := by
  induction parameters generalizing token r with
  | nil =>
    rw [List.flatMap_nil, List.append_nil]
    exact runsTo_of_not_mem h
  | cons next parameters ih =>
    obtain ⟨hnext, hparameters⟩ := List.forall_mem_cons.mp hparameters
    rw [List.flatMap_cons, List.cons_append, List.dropLast_cons_cons, List.foldl_cons]
    exact runsTo_cons h (ih hnext hparameters)

theorem sep_not_mem_address : sep ∉ line.address := by
  intro h
  exact absurd (isSpace_of_isHexDigit (line.address_hex sep h)) (by decide)

theorem sscanf_address :
    sscanf [.hex] line.address = [.hex (.ofNat (hexValue line.address))] := by
  rw [sscanf, scanHex_digits line.address_ne line.address_hex line.address_lt]
  rfl

/-- The address and the policy are cut off the line. -/
theorem parseHead_text {rest : List Char} (h : sep ∉ token) :
    parseHead (line.address ++ sep :: (token ++ sep :: rest)) r =
      (rest, { r with address := .ofNat (hexValue line.address), policy := token }) := by
  rw [parseHead, find_append sep_not_mem_address]
  simp [substr, eraseThrough, sscanf_address, find_append h]

/-- If there is nothing behind the policy, it is left in the line. -/
theorem parseHead_text_nil (h : sep ∉ token) :
    parseHead (line.address ++ sep :: token) r =
      (token, { r with address := .ofNat (hexValue line.address), policy := token }) := by
  rw [parseHead, find_append sep_not_mem_address]
  simp [substr, eraseThrough, sscanf_address, find_eq_none_iff.mpr h]

/-- What `parse_line` does. -/
theorem runsTo_line (line : NumaMapsLine) (r : MemRegionNumaMaps) :
    RunsTo (parseHead line.text r) line.parameters.dropLast
      (line.parameters.dropLast.foldl (fun r parameter => (parseParameter parameter r).2)
        (line.head r)) := by
  rw [NumaMapsLine.text, NumaMapsLine.head]
  rcases hparameters : line.parameters with _ | ⟨parameter, parameters⟩
  · -- the policy is not erased, and the loop does not find a space in it
    rw [List.flatMap_nil, List.append_nil, parseHead_text_nil line.sep_not_mem_policy]
    exact runsTo_of_not_mem line.sep_not_mem_policy
  · obtain ⟨hparameter, hrest⟩ := List.forall_mem_cons.mp (hparameters ▸ line.sep_not_mem)
    rw [List.flatMap_cons, List.cons_append, parseHead_text line.sep_not_mem_policy]
    exact runsTo_tokens hparameter hrest

theorem RunsTo.exists_result {s : List Char × MemRegionNumaMaps} {tokens : List (List Char)}
    (h : RunsTo s tokens r) :
    ∃ fuel, (doWhile parseNext fuel s).map Prod.snd = some r := by
  obtain ⟨trace, s', htrace, -, rfl⟩ := h
  obtain ⟨fuel, trace', s'', hrun, -, rfl⟩ :=
    (htrace fun trace'' s'' => trace'' = trace ∧ s'' = s').mpr ⟨rfl, rfl⟩
  refine ⟨fuel, ?_⟩
  rw [← doWhileTrace_snd, hrun]
  rfl

/-- The parameters of the file are stored one after another. -/
theorem foldl_parseParameter {parameters : List NumaParameter}
    (hvalid : ∀ p ∈ parameters, p.Valid) :
    (parameters.map NumaParameter.text).foldl (fun r parameter => (parseParameter parameter r).2)
      r = parameters.foldl (fun r p => p.store r) r := by
  induction parameters generalizing r with
  | nil => rfl
  | cons p parameters ih =>
    obtain ⟨hp, hparameters⟩ := List.forall_mem_cons.mp hvalid
    rw [List.map_cons, List.foldl_cons, List.foldl_cons, parseParameter_text hp, ih hparameters]

/-- All parameters of the file but the last one end up in their fields. -/
theorem exists_parseLine {parameters : List NumaParameter}
    (htext : line.parameters = parameters.map NumaParameter.text)
    (hnodup : (parameters.map NumaParameter.field).Nodup) (hvalid : ∀ p ∈ parameters, p.Valid)
    (r : MemRegionNumaMaps) :
    ∃ fuel r', parseLine fuel line.text r = some r' ∧
      ∀ p ∈ parameters.dropLast, p.InField r' := by
  obtain ⟨fuel, hrun⟩ := (runsTo_line line r).exists_result
  refine ⟨fuel, _, hrun, fun p hp => ?_⟩
  have hsublist := List.dropLast_sublist parameters
  rw [htext, ← List.map_dropLast, foldl_parseParameter fun p hp => hvalid p (hsublist.mem hp)]
  exact inField_foldl_store ((hsublist.map _).nodup hnodup) hp

/-- The tokens that are parsed are all parameters only if there are none. -/
theorem parameters_eq_nil (h : ParsesLine line r) : line.parameters = [] := by
  obtain ⟨trace, s, htrace, htokens, -⟩ := runsTo_line line r
  have hall : trace.map tokenAt = line.parameters := ((htrace _).mp h).1
  have hlength := congrArg List.length (htokens.symm.trans hall)
  rw [List.length_dropLast] at hlength
  exact List.eq_nil_of_length_eq_zero (by omega)

/-- **Lines.** -/
theorem parsesLine_iff (line : NumaMapsLine) (r : MemRegionNumaMaps) :
    ParsesLine line r ↔ line.parameters = [] := by
  refine ⟨parameters_eq_nil, fun hparameters => ?_⟩
  obtain ⟨trace, s, htrace, htokens, hs⟩ := runsTo_line line r
  rw [ParsesLine, htrace]
  rw [hparameters] at htokens hs ⊢
  refine ⟨htokens, congrArg MemRegionNumaMaps.address hs, congrArg MemRegionNumaMaps.policy hs, ?_⟩
  intro parameters htext hnodup hvalid p hp
  rw [List.map_eq_nil_iff.mp htext.symm] at hp
  exact absurd hp List.not_mem_nil

end Lines

/-! ### A range of huge pages -/

/-- A huge page of 2 MiB on node 0, the size of which is the last parameter. -/
def hugePageLine : NumaMapsLine where
  address := ['7', 'f', '0', '0']
  policy := ['d', 'e', 'f', 'a', 'u', 'l', 't']
  parameters := [hugeStr, ['a', 'n', 'o', 'n', '=', '1'], ['N', '0', '=', '1'],
    CountField.kernelpagesizeKB.key ++ ['=', '2', '0', '4', '8']]
  address_ne := List.cons_ne_nil _ _
  address_hex := List.all_eq_true.mp rfl
  address_lt := by decide
  sep_not_mem_policy := by decide
  sep_not_mem := by decide

theorem not_parsesLine_hugePageLine :
    (∃ r, parseLine 4 hugePageLine.text .new = some r ∧ r.huge = true ∧ r.kernelpagesizeKB = 4) ∧
      ¬ ParsesLine hugePageLine .new :=
  ⟨⟨_, rfl, rfl, rfl⟩, fun h => List.cons_ne_nil _ _ (parameters_eq_nil h)⟩

end Thanos
