import Fluxa.Base.Base64
import Fluxa.Base.FileTree
import Fluxa.Base.Outcome
import Fluxa.Value

/-! `fs.read_base64` of `std.fs` (`fluxa_std_fs.h`): a file below the working directory, of a known type and a bounded
size, as base64. The working directory and the file are compared by their canonical names, but the extension is looked
for in the path as the program gave it. Running out of memory and a file that shrinks while it is read are left out,
and so are the line numbers of the messages. -/

namespace Fluxa.StdFs

open FileTree Base64

def ascii (s : String) : Bytes := s.toUTF8.toList

def fsPathCap : ℕ := 4096

/-- The canonical name as a string, if it fits. -/
def fsRealPath (disk : Disk) (path : Bytes) : Option Bytes :=
  match disk.realPath path with
  | none => none
  | some names => if (spell names).length < fsPathCap then some (spell names) else none

def fsPathIsSep (c : UInt8) : Bool := c == slash

/-- The working directory without the separators at its end, and then a separator or nothing. -/
def isInside (realPath realCwd : Bytes) : Bool :=
  let cwd := realCwd.rdropWhile fsPathIsSep
  realPath.take cwd.length == cwd &&
    match (realPath.drop cwd.length).head? with
    | none => true
    | some c => fsPathIsSep c

def fsSigMatch (sig : Bytes) (off : ℕ) (want : Bytes) : Bool :=
  if off + want.length > sig.length then false else (sig.drop off).take want.length == want

def toLower (c : UInt8) : UInt8 := if 65 ≤ c ∧ c ≤ 90 then c - 65 + 97 else c

def fsHasExt (path ext : Bytes) : Bool :=
  if path.length < ext.length then false
  else (path.drop (path.length - ext.length)).map toLower == ext.map toLower

/-- The extensions of a type, and its signatures: each is what has to stand at which offsets. A type of plain text has
one that asks for nothing. -/
structure FileType where
  exts : List String
  sigs : List (List (ℕ × Bytes))

def text (ext : String) : FileType := ⟨[ext], [[]]⟩

def magic (exts : List String) (sig : Bytes) : FileType := ⟨exts, [[(0, sig)]]⟩

/-- A RIFF container has its type at offset 8. -/
def riff (ext : String) (kind : Bytes) : FileType := ⟨[ext], [[(0, [0x52, 0x49, 0x46, 0x46]), (8, kind)]]⟩

def fileType : String → Option FileType
  | "csv" => some (text ".csv")
  | "json" => some (text ".json")
  | "txt" => some (text ".txt")
  | "png" => some (magic [".png"] [0x89, 0x50, 0x4E, 0x47, 0x0D, 0x0A, 0x1A, 0x0A])
  | "jpg" => some (magic [".jpg", ".jpeg"] [0xFF, 0xD8, 0xFF])
  | "gif" => some (magic [".gif"] [0x47, 0x49, 0x46, 0x38])
  | "qoi" => some (magic [".qoi"] [0x71, 0x6F, 0x69, 0x66])
  | "bmp" => some (magic [".bmp"] [0x42, 0x4D])
  | "webp" => some (riff ".webp" [0x57, 0x45, 0x42, 0x50])
  | "pdf" => some (magic [".pdf"] [0x25, 0x50, 0x44, 0x46])
  | "zip" => some (magic [".zip"] [0x50, 0x4B, 0x03, 0x04])
  | "xlsx" => some (magic [".xlsx"] [0x50, 0x4B, 0x03, 0x04])
  | "docx" => some (magic [".docx"] [0x50, 0x4B, 0x03, 0x04])
  | "flac" => some (magic [".flac"] [0x66, 0x4C, 0x61, 0x43])
  | "ogg" => some (magic [".ogg"] [0x4F, 0x67, 0x67, 0x53])
  | "wav" => some (riff ".wav" [0x57, 0x41, 0x56, 0x45])
  | "avi" => some (riff ".avi" [0x41, 0x56, 0x49, 0x20])
  | "mp4" => some ⟨[".mp4", ".m4a", ".m4v"], [[(4, [0x66, 0x74, 0x79, 0x70])]]⟩
  | "webm" => some (magic [".webm"] [0x1A, 0x45, 0xDF, 0xA3])
  | "mp3" => some ⟨[".mp3"], [[(0, [0x49, 0x44, 0x33])], [(0, [0xFF, 0xFB])]]⟩
  | _ => none

def FileType.hasExt (t : FileType) (path : Bytes) : Bool := t.exts.any fun ext => fsHasExt path (ascii ext)

/-- `none` for an unknown type. -/
def fsTypeOk (type : String) (path sig : Bytes) : Option Bool :=
  if type = "any" then some true
  else (fileType type).map fun t => t.hasExt path && t.sigs.any fun s => s.all fun at_ => fsSigMatch sig at_.1 at_.2

/-- One round of the encoder: the second and the third byte may lie past the end of the file. -/
def base64Round (raw₀ : UInt8) (raw₁ raw₂ : Option UInt8) : List Char :=
  let b₀ := raw₀.toNat
  let b₁ := (raw₁.getD 0).toNat
  let b₂ := (raw₂.getD 0).toNat
  let triple := b₀ <<< 16 ||| b₁ <<< 8 ||| b₂
  [letter (triple >>> 18 &&& 0x3F),
    letter (triple >>> 12 &&& 0x3F),
    if raw₁.isSome then letter (triple >>> 6 &&& 0x3F) else '=',
    if raw₂.isSome then letter (triple &&& 0x3F) else '=']

def base64 : Bytes → List Char
  | [] => []
  | [a] => base64Round a none none
  | [a, b] => base64Round a (some b) none
  | a :: b :: c :: raw => base64Round a (some b) (some c) ++ base64 raw

/-- The canonical name, if it is that of the working directory or of something below it. -/
def confine (disk : Disk) (path : Bytes) : Except String Bytes :=
  match fsRealPath disk path with
  | none => .error "read_base64: file not found or unreadable"
  | some realPath =>
    match fsRealPath disk dot with
    | none => .error "read_base64: cannot resolve working directory"
    | some realCwd =>
      if isInside realPath realCwd then .ok realPath
      else .error "read_base64: path is outside the allowed directory"

/-- The contents, if it is a regular file whose size is within the bounds. -/
def openRegular (disk : Disk) (realPath : Bytes) (maxBytes : ℤ) : Except String Bytes :=
  match disk.stat realPath with
  | none => .error "read_base64: cannot stat file"
  | some (.file contents readable) =>
    if maxBytes < contents.length then .error "read_base64: file exceeds max_bytes"
    else if contents.length = 0 then .error "read_base64: empty file"
    else if readable then .ok contents
    else .error "read_base64: cannot open file"
  | some _ => .error "read_base64: not a regular file"

/-- `fs.read_base64` after the checks of its arguments. -/
def readBase64 (disk : Disk) (path : Bytes) (maxBytes : ℤ) (type : String) : Except String String := do
  let realPath ← confine disk path
  let contents ← openRegular disk realPath maxBytes
  match fsTypeOk type path (contents.take 16) with
  | none => .error "read_base64: unknown type name"
  | some false => .error "read_base64: file does not match the requested type"
  | some true => .ok (String.ofList (base64 contents))

section Encoder

theorem triple_eq (a b c : UInt8) : a.toNat <<< 16 ||| b.toNat <<< 8 ||| c.toNat = group a b c := by
  have hb := b.toNat_lt
  have hc := c.toNat_lt
  have h₁ : a.toNat <<< 16 ||| b.toNat <<< 8 = (a.toNat <<< 8 + b.toNat) <<< 8 := by
    rw [← Nat.shiftLeft_add_eq_or_of_lt (i := 16)]
    · simp only [Nat.shiftLeft_eq]
      omega
    · rw [Nat.shiftLeft_eq]
      omega
  rw [h₁, ← Nat.shiftLeft_add_eq_or_of_lt (by omega), group_eq]
  simp only [Nat.shiftLeft_eq]
  omega

theorem letter_triple (a b c : UInt8) (k : ℕ) :
    letter ((a.toNat <<< 16 ||| b.toNat <<< 8 ||| c.toNat) >>> k &&& 0x3F) = groupLetter a b c k := by
  have h (n : ℕ) : n &&& 0x3F = n % 64 := Nat.and_two_pow_sub_one_eq_mod n 6
  rw [triple_eq, h, Nat.shiftRight_eq_div_pow]
  rfl

theorem base64_eq_encode (raw : Bytes) : base64 raw = encode raw := by
  induction raw using base64.induct with
  | case1 => rfl
  | case2 a =>
    rw [encode_one, ← letter_triple, ← letter_triple]
    rfl
  | case3 a b =>
    rw [encode_two, ← letter_triple, ← letter_triple, ← letter_triple]
    rfl
  | case4 a b c raw ih =>
    rw [encode_three, ← ih, ← letter_triple, ← letter_triple, ← letter_triple, ← letter_triple]
    rfl

end Encoder

/-- What the caller may rely on about a file that was read, apart from its type. -/
structure IsRead (disk : Disk) (path : Bytes) (maxBytes : ℤ) (out : String) (names : List Name) (contents : Bytes) :
    Prop where
  resolved : disk.realPath path = some names
  regular : ∃ readable, disk.root.descend names = some (.file contents readable)
  confined : ∃ cwd, disk.realPath dot = some cwd ∧ cwd <+: names ∧ cwd ≠ names
  size_pos : 1 ≤ contents.length
  size_le : contents.length ≤ maxBytes
  encoded : out = String.ofList (encode contents)

/-- The first bytes of a file are one of the signatures. -/
def FileType.Signs (t : FileType) (contents : Bytes) : Prop := ∃ s ∈ t.sigs, ∀ at_ ∈ s, at_.2 <+: contents.drop at_.1

/-- The canonical name and the first bytes of a file are those of a type. -/
def IsOfType (type : String) (names : List Name) (contents : Bytes) : Prop :=
  type = "any" ∨ ∃ t, fileType type = some t ∧ t.hasExt (spell names) ∧ t.Signs contents

section Guards

variable {disk : Disk} {path realPath contents : Bytes} {maxBytes : ℤ} {type out : String} {names cwd : List Name}

theorem fsRealPath_eq_some (h : fsRealPath disk path = some realPath) :
    ∃ names, disk.realPath path = some names ∧ realPath = spell names := by
  unfold fsRealPath at h
  split at h
  · cases h
  · rename_i names hnames
    obtain ⟨-, h⟩ := Option.ite_none_right_eq_some.mp h
    cases h
    exact ⟨names, hnames, rfl⟩

theorem rdropWhile_spell (names : List Name) : (spell names).rdropWhile fsPathIsSep = spellAll names := by
  rcases List.eq_nil_or_concat names with rfl | ⟨init, c, rfl⟩
  · rfl
  · rw [List.concat_eq_append, spell, if_neg (by simp)]
    apply List.rdropWhile_eq_self_iff.mpr
    intro hne hsep
    have hlast : (spellAll (init ++ [c])).getLast hne = c.bytes.getLast c.ne_nil := by
      simp [spellAll, c.ne_nil]
    rw [hlast] at hsep
    exact c.slash_not_mem (beq_iff_eq.mp hsep ▸ List.getLast_mem c.ne_nil)

theorem prefix_of_isInside (h : isInside (spell names) (spell cwd)) : cwd <+: names := by
  unfold isInside at h
  rw [rdropWhile_spell] at h
  obtain ⟨htake, hnext⟩ := Bool.and_eq_true_iff.mp h
  have htake := beq_iff_eq.mp htake
  cases names with
  | nil =>
    cases cwd with
    | nil => exact List.nil_prefix
    | cons c cs =>
      -- the root is shorter than every other directory
      have hlen : (spellAll (c :: cs)).length ≤ 1 := by
        rw [← htake]
        exact List.length_take_le' _ _
      have hc := List.length_pos_of_ne_nil c.ne_nil
      simp only [spellAll, List.flatMap_cons, List.length_append, List.length_cons] at hlen
      omega
  | cons r rs =>
    rw [spell, if_neg (List.cons_ne_nil r rs)] at htake hnext
    refine prefix_of_spellAll ((spellAll (r :: rs)).drop (spellAll cwd).length) ?_ ?_
    · conv_lhs => rw [← List.take_append_drop (spellAll cwd).length (spellAll (r :: rs)), htake]
    · cases hdrop : (spellAll (r :: rs)).drop (spellAll cwd).length with
      | nil => exact .inl rfl
      | cons c tail =>
        rw [hdrop] at hnext
        exact .inr (congrArg some (beq_iff_eq.mp hnext))

theorem confine_eq_ok (h : confine disk path = .ok realPath) :
    ∃ names cwd, disk.realPath path = some names ∧ realPath = spell names ∧ disk.realPath dot = some cwd ∧
      cwd <+: names := by
  unfold confine at h
  split at h
  · cases h
  · rename_i real hreal
    split at h
    · cases h
    · rename_i realCwd hcwd
      split at h
      · rename_i hinside
        cases h
        obtain ⟨names, hnames, rfl⟩ := fsRealPath_eq_some hreal
        obtain ⟨cwd, hdot, rfl⟩ := fsRealPath_eq_some hcwd
        exact ⟨names, cwd, hnames, rfl, hdot, prefix_of_isInside hinside⟩
      · cases h

theorem openRegular_eq_ok (h : openRegular disk realPath maxBytes = .ok contents) :
    (∃ readable, disk.stat realPath = some (.file contents readable)) ∧ 1 ≤ contents.length ∧
      contents.length ≤ maxBytes := by
  unfold openRegular at h
  split at h
  · cases h
  · rename_i raw readable hstat
    split_ifs at h with hmax hempty hread
    cases h
    exact ⟨⟨readable, hstat⟩, Nat.one_le_iff_ne_zero.mpr hempty, not_lt.mp hmax⟩
  · cases h

theorem ne_of_regular {readable : Bool} (hcwd : disk.realPath dot = some cwd)
    (hfile : disk.root.descend names = some (.file contents readable)) : cwd ≠ names := by
  rintro rfl
  obtain ⟨d, hd, hdir⟩ := Disk.realPath_dot hcwd
  rw [hfile] at hd
  cases hd
  cases hdir

theorem fsSigMatch_take {n off : ℕ} {want : Bytes} (h : fsSigMatch (contents.take n) off want) :
    want <+: contents.drop off := by
  unfold fsSigMatch at h
  split_ifs at h with hlen
  have hwant := beq_iff_eq.mp h
  rw [List.drop_take, List.take_take] at hwant
  rw [← hwant]
  exact List.take_prefix _ _

theorem fsTypeOk_eq_true {n : ℕ} (h : fsTypeOk type path (contents.take n) = some true) :
    type = "any" ∨ ∃ t, fileType type = some t ∧ t.hasExt path ∧ t.Signs contents := by
  unfold fsTypeOk at h
  by_cases hany : type = "any"
  · exact .inl hany
  · rw [if_neg hany] at h
    obtain ⟨t, ht, hok⟩ := Option.map_eq_some_iff.mp h
    obtain ⟨hext, hsig⟩ := Bool.and_eq_true_iff.mp hok
    obtain ⟨s, hs, hall⟩ := List.any_eq_true.mp hsig
    refine .inr ⟨t, ht, hext, s, hs, ?_⟩
    intro at_ hat
    exact fsSigMatch_take (List.all_eq_true.mp hall at_ hat)

theorem readBase64_eq_ok (h : readBase64 disk path maxBytes type = .ok out) :
    ∃ names contents, IsRead disk path maxBytes out names contents ∧
      fsTypeOk type path (contents.take 16) = some true := by
  obtain ⟨realPath, hconfine, h⟩ := Except.bind_eq_ok.mp h
  obtain ⟨names, cwd, hnames, rfl, hcwd, hprefix⟩ := confine_eq_ok hconfine
  obtain ⟨contents, hopen, h⟩ := Except.bind_eq_ok.mp h
  obtain ⟨⟨readable, hstat⟩, hpos, hle⟩ := openRegular_eq_ok hopen
  rw [Disk.stat_spell (Disk.realPath_canonical hnames)] at hstat
  refine ⟨names, contents, ?_⟩
  split at h
  · cases h
  · cases h
  · rename_i htype
    cases h
    refine ⟨⟨hnames, ⟨readable, hstat⟩, ⟨cwd, hcwd, hprefix, ne_of_regular hcwd hstat⟩, hpos, hle, ?_⟩, htype⟩
    rw [base64_eq_encode]

end Guards

/-- Links do not hide the type: if the path as it is given has an extension of the type, the canonical name of what it
leads to has one too. -/
def LinksKeepType (disk : Disk) (path : Bytes) (type : String) : Prop :=
  ∀ t names, fileType type = some t → disk.realPath path = some names → t.hasExt path → t.hasExt (spell names)

/-- What is returned is a file below the working directory and of the type, as base64. -/
def Confined (disk : Disk) (path : Bytes) (maxBytes : ℤ) (type out : String) : Prop :=
  ∃ names contents, IsRead disk path maxBytes out names contents ∧ IsOfType type names contents

/-- All but the extension holds of every file that is read (`readBase64_eq_ok`). -/
theorem read_base64_confined_iff (disk : Disk) (path : Bytes) (maxBytes : ℤ) (type out : String)
    (h : readBase64 disk path maxBytes type = .ok out) :
    Confined disk path maxBytes type out ↔ LinksKeepType disk path type := by
  obtain ⟨names, contents, hread, hok⟩ := readBase64_eq_ok h
  constructor
  · rintro ⟨names', contents', hread', hany | ⟨t, ht, hext, -⟩⟩
    · intro t _ ht
      rw [hany] at ht
      cases ht
    · intro t' names'' ht' hnames'' _
      rw [ht] at ht'
      rw [hread'.resolved] at hnames''
      cases ht'
      cases hnames''
      exact hext
  · intro hkeep
    refine ⟨names, contents, hread, ?_⟩
    rcases fsTypeOk_eq_true hok with hany | ⟨t, ht, hext, hsigns⟩
    · exact .inl hany
    · exact .inr ⟨t, ht, hkeep t names ht hread.resolved hext, hsigns⟩

def fileName (s : String)
    (h : ascii s ≠ [] ∧ slash ∉ ascii s ∧ 0 ∉ ascii s ∧ ascii s ≠ dot ∧ ascii s ≠ dotdot) : Name :=
  ⟨ascii s, h.1, h.2.1, h.2.2.1, h.2.2.2.1, h.2.2.2.2⟩

/-- The directory `/work` holds a table, a key and a link to the key whose name is that of a table. -/
def workDisk : Disk where
  root := .dir [(fileName "work" (by decide +kernel), .dir [
    (fileName "data.csv" (by decide +kernel), .file (ascii "1,2") true),
    (fileName "key" (by decide +kernel), .file (ascii "secret") true),
    (fileName "report.csv" (by decide +kernel), .link (ascii "../work/key"))])]
  root_isDir := rfl
  cwd := [fileName "work" (by decide +kernel)]
  maxLinks := 40

theorem table_read_confined :
    readBase64 workDisk (ascii "./data.csv") 100 "csv" = .ok "MSwy" ∧
      (Confined workDisk (ascii "./data.csv") 100 "csv" "MSwy" ↔ LinksKeepType workDisk (ascii "./data.csv") "csv") :=
  have h : readBase64 workDisk (ascii "./data.csv") 100 "csv" = .ok "MSwy" := by decide +kernel
  ⟨h, read_base64_confined_iff _ _ _ _ _ h⟩

/-- The file that is not a table is read through the link. -/
theorem link_hides_type :
    readBase64 workDisk (ascii "report.csv") 100 "csv" = .ok "c2VjcmV0" ∧
      ¬ Confined workDisk (ascii "report.csv") 100 "csv" "c2VjcmV0" := by
  refine ⟨by decide +kernel, ?_⟩
  rintro ⟨names, contents, hread, hany | ⟨t, ht, hext, -⟩⟩
  · exact absurd hany (by decide)
  · cases ht
    have hnames : workDisk.realPath (ascii "report.csv") =
        some [fileName "work" (by decide +kernel), fileName "key" (by decide +kernel)] := by decide +kernel
    rw [hread.resolved] at hnames
    cases hnames
    revert hext
    decide +kernel

end Fluxa.StdFs
