import Xdelta.Lib.CString
import Mathlib.Data.Nat.Notation
import Mathlib.Tactic.IntervalCases

/-!
# The application header

The command line puts the names of the target and the source, their external
compressors and, unless it is told not to, digests of both files into the
application header, and splits it again when it decodes. Strings are the bytes
before their terminator.
-/
namespace Xdelta.Main
open CString

abbrev Str := List UInt8

def str (s : String) : Str := s.toList.map fun c => UInt8.ofNat c.toNat

def slash : UInt8 := 47
def backslash : UInt8 := 92
def hash : UInt8 := 35

/-- The name after the later of the last slash and the last backslash; `separator` as the bytes
that follow it. -/
def separatorRest (x : Str) : Option Str :=
  match strrchr slash x, strrchr backslash x with
  | none, none => none
  | some s, none => some s.2
  | none, some b => some b.2
  | some s, some b => if b.1.length < s.1.length then some s.2 else some b.2

/-- `main_apphead_string`; nothing is `XD3_INVALID_INPUT`. -/
def appheadString : Option Str → Option Str
  | none => some []
  | some x =>
    if x = str "/dev/stdin" ∨ x = str "/dev/stdout" ∨ x = str "/dev/stderr" then some (str "-")
    else match separatorRest x with
      | none => if x = [] then none else some x
      | some rest => if x = [] ∨ rest = [] then none else some rest

/-- `extcomp_types`. -/
inductive Extcomp where
  | bzip2 | gzip | compress | xz
  deriving DecidableEq, Repr

/-- The `ident` of an entry. -/
def Extcomp.ident : Extcomp → UInt8
  | .bzip2 => 66
  | .gzip => 71
  | .compress => 90
  | .xz => 89

/-- `main_get_compressor`: the first entry whose `ident` is the string. -/
def getCompressor (ident : Str) : Option Extcomp :=
  [Extcomp.bzip2, .gzip, .compress, .xz].find? fun e => [e.ident] = ident

def digit (level : ℕ) : UInt8 := UInt8.ofNat (48 + level)

def isDigit (c : UInt8) : Bool := 48 ≤ c && c ≤ 57

/-- `main_apphead_comp`; `useLevel` is `option_use_comp_level`. -/
def appheadComp (comp : Option Extcomp) (level : ℤ) (useLevel : Bool) : Str :=
  match comp with
  | none => []
  | some e =>
    if 0 ≤ level ∧ level ≤ 9 ∧ useLevel = true then [e.ident, digit level.toNat] else [e.ident]

/-- A BLAKE3 digest, of `BLAKE3_OUT_LEN` bytes. -/
structure Digest where
  bytes : List UInt8
  length_eq : bytes.length = 32

def hexdig (n : ℕ) : UInt8 := if n < 10 then UInt8.ofNat (48 + n) else UInt8.ofNat (87 + n)

def armorHex (d : Digest) : Str :=
  d.bytes.flatMap fun b => [hexdig ((b.toNat >>> 4) &&& 0xf), hexdig (b.toNat &&& 0xf)]

def isHexDigit (c : UInt8) : Bool := (48 ≤ c && c ≤ 57) || (97 ≤ c && c ≤ 102)

def armorIsHex (s : Str) : Bool := s.length = 64 && s.all isHexDigit

/-- `main_armor_split`: the name, cut at the last `#` where a digest follows it. -/
def armorSplit (name : Str) : Str × Option Str :=
  match strrchr hash name with
  | some r => if armorIsHex r.2 then (r.1, some r.2) else (name, none)
  | none => (name, none)

/-- The fields of `main_file` the header is made from; `digest` is what `main_armor_hash_file`
computes of the file. A name has no null byte. -/
structure MainFile where
  filename : Option Str
  compressor : Option Extcomp
  compressionLevel : ℤ
  digest : Digest
  filename_string : ∀ x, filename = some x → 0 ∉ x

/-- `#` and the digest after a name, where digests are written. -/
def digestField (armor : Bool) (file : MainFile) : Str :=
  if armor then hash :: armorHex file.digest else []

/-- `snprintf` into a buffer of `len` bytes. -/
def snprintf (len : ℕ) (s : Str) : Str := s.take (len - 1)

/-- `main_set_appheader` where the user gives no header of his own; a source without a name is no
source, and nothing is an error. -/
def setAppheader (armor useLevel : Bool) (input sfile : MainFile) : Option Str :=
  match appheadString input.filename with
  | none => none
  | some iname =>
    let icomp := appheadComp input.compressor input.compressionLevel useLevel
    let tdigest := digestField armor input
    let sdigest := digestField armor sfile
    let len := iname.length + icomp.length + 2
    if armor = true ∧ input.filename = none then none
    else match sfile.filename with
      | none =>
        some (snprintf (len + tdigest.length) (iname ++ tdigest ++ slash :: icomp))
      | some sfilename =>
        match appheadString (some sfilename) with
        | none => none
        | some sname =>
          let scomp := appheadComp sfile.compressor sfile.compressionLevel useLevel
          some (snprintf (len + (sname.length + scomp.length + 2) + tdigest.length + sdigest.length)
            (iname ++ tdigest ++ slash :: icomp ++ slash :: sname ++ sdigest ++ slash :: scomp))

structure Digests where
  source : Option Str := none
  target : Option Str := none
  deriving DecidableEq

def cstring (apphead : List UInt8) : Str := apphead.takeWhile (· ≠ 0)

def armorParseAppheader (apphead : List UInt8) : Digests :=
  if apphead = [] then {}
  else match fields slash 3 (cstring apphead) with
    | [target, _] => { target := (armorSplit target).2 }
    | [target, _, source, _] =>
      { target := (armorSplit target).2, source := (armorSplit source).2 }
    | _ => {}

/-- The fields of `main_file` that decoding sets from the header. -/
structure DecodedFile where
  filename : Option Str := none
  compressor : Option Extcomp := none
  compressionLevel : ℤ := -1
  decompset : Bool := false
  deriving DecidableEq

/-- The `ident` loop of `main_get_appheader_params`, with room for `n` characters. -/
def identPrefix : ℕ → Str → Str × Str
  | 0, comp => ([], comp)
  | _, [] => ([], [])
  | n + 1, c :: comp =>
    if isDigit c then ([], c :: comp)
    else ((c :: (identPrefix n comp).1), (identPrefix n comp).2)

/-- The name of a file that has none yet, in the directory of the other file. -/
def paramsFilename (file : DecodedFile) (name : Str) (output useStdout : Bool)
    (other : Option Str) : DecodedFile :=
  if file.filename = none ∧ ¬ (output = true ∧ useStdout = true) ∧ name ≠ [] ∧ name ≠ str "-" then
    { file with filename := some (match other.bind (strrchr slash) with
        | some r => r.1 ++ slash :: name
        | none => name) }
  else file

def paramsCompressor (file : DecodedFile) (comp : Str) : DecodedFile :=
  if file.compressor = none ∧ comp ≠ [] then
    let r := identPrefix 7 comp
    { file with
      compressionLevel := match r.2 with
        | c :: _ => if isDigit c then (c.toNat : ℤ) - 48 else file.compressionLevel
        | [] => file.compressionLevel
      decompset := true
      compressor := getCompressor r.1 }
  else file

/-- `main_get_appheader_params`; `other` is the name of the other file. -/
def getAppheaderParams (file : DecodedFile) (name comp : Str) (output useStdout : Bool)
    (other : Option Str) : DecodedFile :=
  paramsCompressor (paramsFilename file name output useStdout other) comp

/-- What `main_get_appheader` leaves: the output and the source file, and the digests expected. -/
structure Decoded where
  output : DecodedFile
  source : DecodedFile
  expected : Digests
  deriving DecidableEq

/-- `main_get_appheader` on a header that has been received. -/
def getAppheader (noArmor useStdout : Bool) (ifilename : Option Str) (output sfile : DecodedFile)
    (apphead : List UInt8) : Decoded :=
  if apphead = [] then ⟨output, sfile, {}⟩
  else match fields slash 3 (cstring apphead) with
    | [target, tcomp] =>
      let t := armorSplit target
      ⟨getAppheaderParams output t.1 tcomp true useStdout ifilename, sfile,
        if noArmor then {} else { target := t.2 }⟩
    | [target, tcomp, source, scomp] =>
      let t := armorSplit target
      let s := armorSplit source
      ⟨getAppheaderParams output t.1 tcomp true useStdout ifilename,
        getAppheaderParams sfile s.1 scomp false useStdout ifilename,
        if noArmor then {} else { target := t.2, source := s.2 }⟩
    | _ => ⟨output, sfile, {}⟩

def baseName (file : MainFile) : Str := (appheadString file.filename).getD []

def writtenDigests (armor : Bool) (input sfile : MainFile) : Digests :=
  if armor then
    { target := some (armorHex input.digest)
      source := if sfile.filename.isSome then some (armorHex sfile.digest) else none }
  else {}

/-- The header is split into what it was made from. -/
structure HeaderRight (armor useLevel : Bool) (input sfile : MainFile) (apphead : List UInt8) :
    Prop where
  /-- The digests found are those written. -/
  parse : armorParseAppheader apphead = writtenDigests armor input sfile
  /-- The files are set up from the names and compressors written. -/
  split : ∀ (noArmor useStdout : Bool) (ifilename : Option Str) (output source : DecodedFile),
    getAppheader noArmor useStdout ifilename output source apphead =
      ⟨getAppheaderParams output (baseName input)
          (appheadComp input.compressor input.compressionLevel useLevel) true useStdout ifilename,
        if sfile.filename.isSome then
          getAppheaderParams source (baseName sfile)
            (appheadComp sfile.compressor sfile.compressionLevel useLevel) false useStdout ifilename
        else source,
        if noArmor then {} else writtenDigests armor input sfile⟩
  /-- A file without a compressor gets the one written, with its level where one was written. -/
  comps : ∀ (e : Extcomp) (level : ℤ) (file : DecodedFile) (name : Str) (output useStdout : Bool)
    (other : Option Str), file.compressor = none →
    let comp := appheadComp (some e) level useLevel
    (getAppheaderParams file name comp output useStdout other).compressor = some e ∧
      (getAppheaderParams file name comp output useStdout other).compressionLevel =
        if 0 ≤ level ∧ level ≤ 9 ∧ useLevel = true then level else file.compressionLevel
  /-- Where no compressor was written, none is set. -/
  nocomp : ∀ (level : ℤ) (file : DecodedFile) (name : Str) (output useStdout : Bool)
    (other : Option Str),
    getAppheaderParams file name (appheadComp none level useLevel) output useStdout other =
      paramsFilename file name output useStdout other

/-- No name looks like one with a digest, unless digests are written. -/
def Unambiguous (armor : Bool) (input sfile : MainFile) : Prop :=
  armor = true ∨ ((armorSplit (baseName input)).2 = none ∧
    (sfile.filename.isSome = true → (armorSplit (baseName sfile)).2 = none))

theorem isHexDigit_hexdig {n : ℕ} (h : n < 16) : isHexDigit (hexdig n) = true := by
  interval_cases n <;> decide

theorem armorHex_digits (d : Digest) : ∀ c ∈ armorHex d, isHexDigit c = true := by
  intro c hc
  obtain ⟨b, -, hmem⟩ := List.mem_flatMap.1 hc
  simp only [List.mem_cons, List.not_mem_nil, or_false] at hmem
  rcases hmem with rfl | rfl
  · exact isHexDigit_hexdig (lt_of_le_of_lt Nat.and_le_right (by decide))
  · exact isHexDigit_hexdig (lt_of_le_of_lt Nat.and_le_right (by decide))

theorem armorHex_length (d : Digest) : (armorHex d).length = 64 := by
  have hlen : ∀ bytes : List UInt8, (bytes.flatMap fun b : UInt8 =>
      [hexdig ((b.toNat >>> 4) &&& 0xf), hexdig (b.toNat &&& 0xf)]).length = 2 * bytes.length := by
    intro bytes
    induction bytes with
    | nil => rfl
    | cons b bytes ih =>
      rw [List.flatMap_cons, List.length_append, ih]
      simp only [List.length_cons, List.length_nil]
      omega
  rw [armorHex, hlen, d.length_eq]

theorem armorIsHex_armorHex (d : Digest) : armorIsHex (armorHex d) = true := by
  have hall : (armorHex d).all isHexDigit = true := List.all_eq_true.2 (armorHex_digits d)
  simp [armorIsHex, armorHex_length, hall]

theorem not_mem_armorHex (d : Digest) {c : UInt8} (hc : isHexDigit c = false) : c ∉ armorHex d := by
  intro hmem
  rw [armorHex_digits d c hmem] at hc
  cases hc

theorem not_mem_appheadComp {c : UInt8} (comp : Option Extcomp) (level : ℤ) (useLevel : Bool)
    (hc : c = 0 ∨ c = slash) : c ∉ appheadComp comp level useLevel := by
  cases comp with
  | none => exact List.not_mem_nil
  | some e =>
    have hident : c ≠ e.ident := by
      rcases hc with rfl | rfl <;> cases e <;> decide
    unfold appheadComp
    split_ifs with hlevel
    · obtain ⟨h0, h9, -⟩ := hlevel
      have hdigit : c ≠ digit level.toNat := by
        obtain ⟨n, rfl⟩ := Int.eq_ofNat_of_zero_le h0
        have hn : n ≤ 9 := by omega
        rw [Int.toNat_natCast]
        rcases hc with rfl | rfl <;> interval_cases n <;> decide
      simp [hident, hdigit]
    · simp [hident]

/-- The characters of a name are characters of its path, and no slash is among them. -/
theorem appheadString_spec {x : Str} {name : Str} (h : appheadString (some x) = some name) :
    slash ∉ name ∧ (0 ∉ x → 0 ∉ name) := by
  unfold appheadString at h
  dsimp only at h
  by_cases hdev : x = str "/dev/stdin" ∨ x = str "/dev/stdout" ∨ x = str "/dev/stderr"
  · rw [if_pos hdev] at h
    cases h
    exact ⟨by decide, fun _ => by decide⟩
  · rw [if_neg hdev] at h
    unfold separatorRest at h
    have hsub : ∀ {b a : Str} {c : UInt8}, strrchr c x = some (b, a) → 0 ∉ x → 0 ∉ a := by
      intro b a c hs h0 hmem
      apply h0
      rw [(strrchr_some hs).1]
      simp [hmem]
    cases hs : strrchr slash x with
    | none =>
      have hnot := not_mem_of_strrchr_none hs
      cases hb : strrchr backslash x with
      | none =>
        rw [hs, hb] at h
        dsimp only at h
        split_ifs at h
        cases h
        exact ⟨hnot, id⟩
      | some b =>
        rw [hs, hb] at h
        dsimp only at h
        split_ifs at h
        cases h
        refine ⟨fun hmem => hnot ?_, hsub hb⟩
        rw [(strrchr_some hb).1]
        simp [hmem]
    | some s =>
      obtain ⟨hsplit, hnot⟩ := strrchr_some hs
      cases hb : strrchr backslash x with
      | none =>
        rw [hs, hb] at h
        dsimp only at h
        split_ifs at h
        cases h
        exact ⟨hnot, hsub hs⟩
      | some b =>
        rw [hs, hb] at h
        dsimp only at h
        by_cases hlater : b.1.length < s.1.length
        · rw [if_pos hlater] at h
          dsimp only at h
          split_ifs at h
          cases h
          exact ⟨hnot, hsub hs⟩
        · rw [if_neg hlater] at h
          dsimp only at h
          split_ifs at h
          cases h
          refine ⟨fun hmem => hnot ?_, hsub hb⟩
          -- what follows the later separator is the end of what follows the slash
          have hb' := (strrchr_some hb).1
          have hlens : s.1.length + s.2.length = b.1.length + b.2.length := by
            have h1 := congrArg List.length hsplit
            have h2 := congrArg List.length hb'
            simp only [List.length_append, List.length_cons] at h1 h2
            omega
          have hb2 : b.2 <:+ x := ⟨b.1 ++ [backslash], by rw [hb']; simp⟩
          have hs2 : s.2 <:+ x := ⟨s.1 ++ [slash], by rw [hsplit]; simp⟩
          exact (List.suffix_of_suffix_length_le hb2 hs2 (by omega)).subset hmem

theorem baseName_spec (file : MainFile) : slash ∉ baseName file ∧ 0 ∉ baseName file := by
  unfold baseName
  cases hname : file.filename with
  | none => exact ⟨List.not_mem_nil, List.not_mem_nil⟩
  | some x =>
    cases happ : appheadString (some x) with
    | none => exact ⟨List.not_mem_nil, List.not_mem_nil⟩
    | some name =>
      obtain ⟨hslash, hzero⟩ := appheadString_spec happ
      exact ⟨hslash, hzero (file.filename_string x hname)⟩

section Fields

variable {armor useLevel : Bool} {input sfile : MainFile} {apphead : List UInt8}

theorem not_mem_digestField (file : MainFile) {c : UInt8} (hc : isHexDigit c = false)
    (hne : c ≠ hash) : c ∉ digestField armor file := by
  unfold digestField
  split_ifs
  · rw [List.mem_cons, not_or]
    exact ⟨hne, not_mem_armorHex _ hc⟩
  · exact List.not_mem_nil

def nameField (armor : Bool) (file : MainFile) : Str := baseName file ++ digestField armor file

theorem slash_not_mem_nameField (file : MainFile) : slash ∉ nameField armor file := by
  rw [nameField, List.mem_append, not_or]
  exact ⟨(baseName_spec file).1, not_mem_digestField file (by decide) (by decide)⟩

theorem zero_not_mem_nameField (file : MainFile) : 0 ∉ nameField armor file := by
  rw [nameField, List.mem_append, not_or]
  exact ⟨(baseName_spec file).2, not_mem_digestField file (by decide) (by decide)⟩

def compField (useLevel : Bool) (file : MainFile) : Str :=
  appheadComp file.compressor file.compressionLevel useLevel

theorem setAppheader_target (h : setAppheader armor useLevel input sfile = some apphead)
    (hnone : sfile.filename = none) :
    apphead = nameField armor input ++ slash :: compField useLevel input := by
  unfold setAppheader at h
  cases hname : appheadString input.filename with
  | none =>
    rw [hname] at h
    cases h
  | some iname =>
    have hbase : baseName input = iname := by rw [baseName, hname]; rfl
    rw [hname, hnone] at h
    dsimp only at h
    split_ifs at h
    rw [Option.some.injEq] at h
    rw [← h, snprintf, List.take_of_length_le]
    · simp [nameField, compField, hbase]
    · simp only [List.length_append, List.length_cons]
      omega

theorem setAppheader_source (h : setAppheader armor useLevel input sfile = some apphead)
    (hsome : sfile.filename.isSome = true) :
    apphead = nameField armor input ++ slash :: (compField useLevel input ++
      slash :: (nameField armor sfile ++ slash :: compField useLevel sfile)) := by
  obtain ⟨sfilename, hfile⟩ := Option.isSome_iff_exists.1 hsome
  unfold setAppheader at h
  cases hname : appheadString input.filename with
  | none =>
    rw [hname] at h
    cases h
  | some iname =>
    have hbase : baseName input = iname := by rw [baseName, hname]; rfl
    rw [hname, hfile] at h
    dsimp only at h
    cases hsname : appheadString (some sfilename) with
    | none =>
      rw [hsname] at h
      split_ifs at h
    | some sname =>
      have hsbase : baseName sfile = sname := by rw [baseName, hfile, hsname]; rfl
      rw [hsname] at h
      dsimp only at h
      split_ifs at h
      rw [Option.some.injEq] at h
      rw [← h, snprintf, List.take_of_length_le]
      · simp [nameField, compField, hbase, hsbase]
      · simp only [List.length_append, List.length_cons]
        omega

theorem cstring_eq (h : (0 : UInt8) ∉ apphead) : cstring apphead = apphead := by
  induction apphead with
  | nil => rfl
  | cons c apphead ih =>
    rw [List.mem_cons, not_or] at h
    have hc : decide (c ≠ 0) = true := decide_eq_true (Ne.symm h.1)
    rw [cstring, List.takeWhile_cons, if_pos hc]
    exact congrArg (c :: ·) (ih h.2)

theorem slash_not_mem_compField (file : MainFile) : slash ∉ compField useLevel file :=
  not_mem_appheadComp _ _ _ (Or.inr rfl)

theorem zero_not_mem_compField (file : MainFile) : 0 ∉ compField useLevel file :=
  not_mem_appheadComp _ _ _ (Or.inl rfl)

theorem fields_setAppheader (h : setAppheader armor useLevel input sfile = some apphead) :
    apphead ≠ [] ∧ fields slash 3 (cstring apphead) =
      if sfile.filename.isSome then
        [nameField armor input, compField useLevel input, nameField armor sfile,
          compField useLevel sfile]
      else [nameField armor input, compField useLevel input] := by
  by_cases hsome : sfile.filename.isSome = true
  · rw [if_pos hsome]
    have heq := setAppheader_source h hsome
    have hzero : (0 : UInt8) ∉ apphead := by
      rw [heq]
      simp [zero_not_mem_nameField, zero_not_mem_compField, show (0 : UInt8) ≠ slash by decide]
    refine ⟨by rw [heq]; simp, ?_⟩
    rw [cstring_eq hzero, heq, fields_succ (slash_not_mem_nameField input),
      fields_succ (slash_not_mem_compField input), fields_succ (slash_not_mem_nameField sfile),
      fields_last (slash_not_mem_compField sfile)]
  · rw [if_neg hsome]
    have heq := setAppheader_target h (by simpa using hsome)
    have hzero : (0 : UInt8) ∉ apphead := by
      rw [heq]
      simp [zero_not_mem_nameField, zero_not_mem_compField, show (0 : UInt8) ≠ slash by decide]
    refine ⟨by rw [heq]; simp, ?_⟩
    rw [cstring_eq hzero, heq, fields_succ (slash_not_mem_nameField input),
      fields_last (slash_not_mem_compField input)]

end Fields

theorem armorSplit_armored (file : MainFile) :
    armorSplit (nameField true file) = (baseName file, some (armorHex file.digest)) := by
  have hcut : strrchr hash (nameField true file) = some (baseName file, armorHex file.digest) :=
    strrchr_append (not_mem_armorHex _ (by decide)) _
  rw [armorSplit, hcut]
  simp [armorIsHex_armorHex]

theorem armorSplit_fst {name : Str} (h : (armorSplit name).2 = none) :
    armorSplit name = (name, none) := by
  unfold armorSplit at h ⊢
  cases hcut : strrchr hash name with
  | none => rfl
  | some r =>
    rw [hcut] at h
    dsimp only at h ⊢
    by_cases hhex : armorIsHex r.2 = true
    · rw [if_pos hhex] at h
      cases h
    · rw [if_neg hhex]

theorem nameField_plain (file : MainFile) : nameField false file = baseName file :=
  List.append_nil _

/-- The digest found after a name is the one written, where no name looks like one with a digest. -/
theorem armorSplit_nameField {armor : Bool} {file : MainFile}
    (h : armor = true ∨ (armorSplit (baseName file)).2 = none) :
    armorSplit (nameField armor file) =
      (baseName file, if armor then some (armorHex file.digest) else none) := by
  cases armor with
  | true => exact armorSplit_armored file
  | false =>
    rw [nameField_plain]
    exact armorSplit_fst (h.resolve_left (by decide))

theorem getCompressor_ident (e : Extcomp) : getCompressor [e.ident] = some e := by
  cases e <;> rfl

theorem isDigit_digit {n : ℕ} (h : n ≤ 9) :
    isDigit (digit n) = true ∧ ((digit n).toNat : ℤ) - 48 = n := by
  interval_cases n <;> decide

theorem isDigit_ident (e : Extcomp) : isDigit e.ident = false := by
  cases e <;> decide

theorem paramsCompressor_spec (e : Extcomp) (level : ℤ) (useLevel : Bool) {file : DecodedFile}
    (hnone : file.compressor = none) :
    let comp := appheadComp (some e) level useLevel
    (paramsCompressor file comp).compressor = some e ∧
      (paramsCompressor file comp).compressionLevel =
        if 0 ≤ level ∧ level ≤ 9 ∧ useLevel = true then level else file.compressionLevel := by
  intro comp
  unfold paramsCompressor
  by_cases hwritten : 0 ≤ level ∧ level ≤ 9 ∧ useLevel = true
  · have heq : comp = [e.ident, digit level.toNat] := if_pos hwritten
    have hlevel : level.toNat ≤ 9 := by omega
    obtain ⟨hdigit, hvalue⟩ := isDigit_digit hlevel
    have hrun : identPrefix 7 comp = ([e.ident], [digit level.toNat]) := by
      rw [heq, identPrefix, if_neg (by simp [isDigit_ident]), identPrefix, if_pos hdigit]
    rw [hrun, if_pos ⟨hnone, by rw [heq]; simp⟩, if_pos hwritten]
    refine ⟨getCompressor_ident e, ?_⟩
    simp only [hdigit, if_true, hvalue]
    omega
  · have heq : comp = [e.ident] := if_neg hwritten
    have hrun : identPrefix 7 comp = ([e.ident], []) := by
      rw [heq, identPrefix, if_neg (by simp [isDigit_ident])]
      rfl
    rw [hrun, if_pos ⟨hnone, by rw [heq]; simp⟩, if_neg hwritten]
    exact ⟨getCompressor_ident e, rfl⟩

theorem paramsFilename_compressor (file : DecodedFile) (name : Str) (output useStdout : Bool)
    (other : Option Str) :
    (paramsFilename file name output useStdout other).compressor = file.compressor ∧
      (paramsFilename file name output useStdout other).compressionLevel =
        file.compressionLevel := by
  unfold paramsFilename
  split_ifs
  · exact ⟨rfl, rfl⟩
  · exact ⟨rfl, rfl⟩

section RoundTrip

variable {armor useLevel : Bool} {input sfile : MainFile} {apphead : List UInt8}

theorem armorParse_setAppheader (h : setAppheader armor useLevel input sfile = some apphead) :
    armorParseAppheader apphead =
      if sfile.filename.isSome then
        { target := (armorSplit (nameField armor input)).2
          source := (armorSplit (nameField armor sfile)).2 }
      else { target := (armorSplit (nameField armor input)).2 } := by
  obtain ⟨hne, hfields⟩ := fields_setAppheader h
  rw [armorParseAppheader, if_neg hne, hfields]
  by_cases hsome : sfile.filename.isSome = true
  · rw [if_pos hsome, if_pos hsome]
  · rw [if_neg hsome, if_neg hsome]

/-- The header is split into what it was made from exactly when no name without a digest looks
like one with a digest. -/
theorem headerRight_iff (armor useLevel : Bool) (input sfile : MainFile) (apphead : List UInt8)
    (h : setAppheader armor useLevel input sfile = some apphead) :
    HeaderRight armor useLevel input sfile apphead ↔ Unambiguous armor input sfile := by
  have hparse := armorParse_setAppheader h
  constructor
  · intro hright
    cases armor with
    | true => exact Or.inl rfl
    | false =>
      have hnone : armorParseAppheader apphead = {} := hright.parse
      rw [hparse, nameField_plain, nameField_plain] at hnone
      by_cases hsome : sfile.filename.isSome = true
      · rw [if_pos hsome] at hnone
        have htarget := congrArg Digests.target hnone
        have hsource := congrArg Digests.source hnone
        exact Or.inr ⟨htarget, fun _ => hsource⟩
      · rw [if_neg hsome] at hnone
        have htarget := congrArg Digests.target hnone
        exact Or.inr ⟨htarget, fun hyes => absurd hyes hsome⟩
  · intro hplain
    have htarget := armorSplit_nameField (hplain.imp id And.left)
    have hsource : sfile.filename.isSome = true → armorSplit (nameField armor sfile) =
        (baseName sfile, if armor then some (armorHex sfile.digest) else none) :=
      fun hsome => armorSplit_nameField (hplain.imp id fun hboth => hboth.2 hsome)
    obtain ⟨hne, hfields⟩ := fields_setAppheader h
    refine ⟨?_, ?_, ?_, fun _ _ _ _ _ _ => if_neg fun hyes => hyes.2 rfl⟩
    · rw [hparse, htarget, writtenDigests]
      by_cases hsome : sfile.filename.isSome = true
      · rw [if_pos hsome, hsource hsome]
        cases armor <;> simp [hsome]
      · rw [if_neg hsome]
        cases armor <;> simp [hsome]
    · intro noArmor useStdout ifilename output source
      rw [getAppheader, if_neg hne, hfields, writtenDigests]
      by_cases hsome : sfile.filename.isSome = true
      · simp only [if_pos hsome, htarget, hsource hsome]
        cases armor <;> cases noArmor <;> rfl
      · simp only [if_neg hsome, htarget]
        cases armor <;> cases noArmor <;> rfl
    · intro e level file name output useStdout other hnone
      obtain ⟨hcomp, hlevel⟩ := paramsFilename_compressor file name output useStdout other
      have hspec := paramsCompressor_spec e level useLevel (hcomp.trans hnone)
      rw [hlevel] at hspec
      exact hspec

end RoundTrip

def plainFile (name : Str) (h : 0 ∉ name) : MainFile where
  filename := some name
  compressor := none
  compressionLevel := -1
  digest := ⟨List.replicate 32 0, by decide⟩
  filename_string x hx := by
    rw [Option.some.injEq] at hx
    rw [← hx]
    exact h

/-- A target and a source in directories, with digests. -/
theorem headerRight_armored :
    ∃ apphead, setAppheader true false (plainFile (str "out/a#1") (by decide))
        (plainFile (str "in\\b") (by decide)) = some apphead ∧
      HeaderRight true false (plainFile (str "out/a#1") (by decide))
        (plainFile (str "in\\b") (by decide)) apphead :=
  ⟨_, rfl, (headerRight_iff true false (plainFile (str "out/a#1") (by decide))
    (plainFile (str "in\\b") (by decide)) _ rfl).2 (Or.inl rfl)⟩

/-- Without digests, a target whose name ends in `#` and 64 hexadecimal digits is cut. -/
theorem headerRight_fails :
    ∃ apphead, setAppheader false false
        (plainFile (str "a#" ++ List.replicate 64 48) (by decide))
        { plainFile [] (by decide) with filename := none, filename_string := nofun } =
          some apphead ∧
      ¬ HeaderRight false false (plainFile (str "a#" ++ List.replicate 64 48) (by decide))
        { plainFile [] (by decide) with filename := none, filename_string := nofun } apphead := by
  refine ⟨_, rfl, fun hright => ?_⟩
  have hparse := hright.parse
  exact absurd (congrArg Digests.target hparse) (by decide)

end Xdelta.Main
