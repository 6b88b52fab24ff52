/-
A package asked for by name.  The catalogue of the image gives the stem of the package, which is
`name-version-architecture` (`cataloguedStem`); a source that nobody trusts gives bytes; and
`installableAs` installs the program of the bytes if their header has that stem and the catalogue
has their digest.

A stem does not say where the name ends.  On the architecture that is asked for, what is installed is
what was asked for exactly if the version of the package holds no hyphen (`stem_inj`,
`fetched_is_requested_iff`).  A package `tar` in the version `gnu-1` has the stem of a package
`tar-gnu` in the version `1`, and is installed in its place (`hyphenated_version_installs_other`).

The hash is any function: nothing here depends on which.
-/
import Nife.ActivationSet
import Nife.Lib.Slices

namespace Nife.Packages

open Activation Slices List Fallible

/-! ### The catalogue -/

/-- The text before and after the first occurrence of a character. -/
def splitOnce (c : Char) (t : Text) : Option (Text × Text) :=
  if c ∈ t then some (t.takeWhile (· != c), (t.dropWhile (· != c)).tail) else none

/-- One line of a manifest, or the line that cannot be read. -/
def manifestEntry (line : Text) : Except Text (Text × Digest) :=
  match splitOnce ' ' line with
  | none => .error line
  | some (name, digits) =>
      match parseHex digits.trim with
      | none => .error line
      | some digest => .ok (name, digest)

def manifestEntries (text : Text) : List (Except Text (Text × Digest)) :=
  (statements text).map manifestEntry

/-- The entries of a manifest without the lines that cannot be read. -/
def readable (text : Text) : List (Text × Digest) :=
  (manifestEntries text).filterMap Except.toOption

def expectedInManifest (text name : Text) : Option Digest :=
  ((readable text).find? fun entry => entry.1 = name).map Prod.snd

/-! ### A package -/

/-- Why a package cannot be read. -/
inductive Error
  | badMagic | tooManyMembers | truncated
  deriving DecidableEq, Repr

/-- `NIFEPKG1`. -/
def magic : Bytes := [0x4e, 0x49, 0x46, 0x45, 0x50, 0x4b, 0x47, 0x31]

def nameLen : Nat := 32

def headerLen : Nat := 8 + nameLen * 3 + 4 + 4

def memberLen : Nat := nameLen + 4 + 4 + 32

def maxMembers : Nat := 64

section

variable (bytes : Bytes)

/-- `core::str::from_utf8`. -/
def fromUtf8 : Option Text := (String.fromUTF8? ⟨bytes.toArray⟩).map String.toList

/-- A name padded with zeros; one that is not UTF-8 reads as empty. -/
def field (start : Nat) : Text :=
  (fromUtf8 ((part bytes start nameLen).takeWhile (· != 0))).getD []

def extent (index : Nat) : Nat × Nat :=
  let start := headerLen + index * memberLen + nameLen
  (le (part bytes start 4), le (part bytes (start + 4) 4))

end

/-- A package that was read: its table and its members are inside the bytes. -/
structure Package where
  bytes : Bytes
  count : Nat
  table : headerLen + count * memberLen ≤ bytes.length
  inside : ∀ index < count, (extent bytes index).1 + (extent bytes index).2 ≤ bytes.length

variable {index : Nat}

namespace Package

/-- The header and the table of members, checked. -/
def parse (bytes : Bytes) : Except Error Package :=
  if bytes.length < headerLen ∨ bytes.take 8 ≠ magic then .error .badMagic
  else
    let count := le (part bytes (headerLen - 8) 4)
    if count > maxMembers then .error .tooManyMembers
    else if htable : headerLen + count * memberLen ≤ bytes.length then
      if hinside : ∀ index < count,
          (extent bytes index).1 + (extent bytes index).2 ≤ bytes.length then
        .ok ⟨bytes, count, htable, hinside⟩
      else .error .truncated
    else .error .truncated

section

variable (p : Package)

def name : Text := field p.bytes 8

def version : Text := field p.bytes (8 + nameLen)

def architecture : Text := field p.bytes (8 + nameLen * 2)

def memberName (index : Nat) : Option Text :=
  if index < p.count then some (field p.bytes (headerLen + index * memberLen)) else none

def member (index : Nat) : Option Bytes :=
  if index < p.count then some (part p.bytes (extent p.bytes index).1 (extent p.bytes index).2)
  else none

theorem digest_inside (p : Package) (h : index < p.count) :
    headerLen + index * memberLen + nameLen + 8 + 32 ≤ p.bytes.length := by
  have hnext : (index + 1) * memberLen ≤ p.count * memberLen := Nat.mul_le_mul_right _ h
  rw [Nat.add_mul] at hnext
  have htable := p.table
  simp only [memberLen, nameLen] at hnext htable ⊢
  omega

def memberDigest (index : Nat) : Option Digest :=
  if h : index < p.count then
    some ⟨part p.bytes (headerLen + index * memberLen + nameLen + 8) 32,
      length_part (p.digest_inside h)⟩
  else none

def indexOf (name : Text) : Option Nat :=
  (List.range p.count).find? fun index => p.memberName index = some name

/-- The name, the version and the architecture with hyphens between them. -/
def stem : Text := p.name ++ '-' :: (p.version ++ '-' :: p.architecture)

end

end Package

/-! ### Installing -/

/-- What is installed: the program, its bytes and their digest. -/
structure Installable where
  program : Text
  bytes : Bytes
  digest : Digest
  deriving DecidableEq, Repr

/-- Why nothing is installed. -/
inductive Refusal
  | unreadable | notCatalogued | noProgram | memberMismatch | notRequested
  deriving DecidableEq, Repr

/-- Why the catalogue has no one stem for a request. -/
inductive StemMiss
  | noSuchPackage | severalVersions
  deriving DecidableEq, Repr

/-- The name that is asked for, and the version if one is. -/
def requested (request : Text) : Text × Option Text :=
  match splitOnce '@' request with
  | some (name, version) => (name, some version)
  | none => (request, none)

/-- The version between a name and an architecture in a stem, if it has no hyphen. -/
def versionIn (name architecture stem : Text) : Option Text :=
  (((((stem.dropSuffix? architecture).bind fun s => s.dropSuffix? ['-']).bind fun s =>
    s.dropPrefix? name).bind fun s => s.dropPrefix? ['-'])).filter fun version =>
      decide (version ≠ [] ∧ '-' ∉ version)

def findStem (name : Text) (wanted : Option Text) (architecture : Text) (found : Option Text)
    (stem : Text) : Except StemMiss (Option Text) :=
  match versionIn name architecture stem with
  | none => .ok found
  | some version =>
      if wanted.any (· != version) then .ok found
      else if found.any (· != stem) then .error .severalVersions
      else .ok (some stem)

/-- The stem of the package that is asked for by name. -/
def cataloguedStem (catalogue request architecture : Text) : Except StemMiss Text :=
  let name := (requested request).1
  let wanted := (requested request).2
  if name = [] ∨ wanted = some [] then .error .noSuchPackage
  else do
    match ← ((readable catalogue).map Prod.fst).foldlM (findStem name wanted architecture) none with
    | none => .error .noSuchPackage
    | some stem => .ok stem

variable (sha256 : Bytes → Digest)

/-- May these bytes be installed, and what is? -/
def installable (catalogue : Text) (bytes : Bytes) : Except Refusal Installable := do
  let package ← (Package.parse bytes).mapError fun _ => Refusal.unreadable
  match expectedInManifest catalogue package.stem with
  | none => .error .notCatalogued
  | some expected =>
      if sha256 bytes ≠ expected then .error .notCatalogued
      else
        match package.indexOf package.name with
        | none => .error .noProgram
        | some index =>
            match package.member index, package.memberDigest index with
            | some member, some digest =>
                if sha256 member ≠ digest then .error .memberMismatch
                else .ok ⟨package.name, member, digest⟩
            | _, _ => .error .noProgram

/-- The same for bytes that were fetched by name. -/
def installableAs (catalogue stem : Text) (bytes : Bytes) : Except Refusal Installable := do
  let package ← (Package.parse bytes).mapError fun _ => Refusal.unreadable
  if package.stem ≠ stem then .error .notRequested
  else installable sha256 catalogue bytes

/-! ### What a stem determines -/

section
variable {c : Char} {n n' v v' a a' : Text}

/-- A text splits in one way at the last occurrence of a character. -/
theorem append_cons_inj (ha : c ∉ a) (ha' : c ∉ a') (h : n ++ c :: a = n' ++ c :: a') :
    n = n' ∧ a = a' := by
  rcases append_eq_append_iff.mp h with ⟨k, hn, hk⟩ | ⟨k, hn, hk⟩
  · cases k with
    | nil => exact ⟨by simpa using hn.symm, by simpa using hk⟩
    | cons x k =>
      -- the second separator would be inside the first tail
      refine absurd ?_ ha
      rw [(List.cons.inj hk).2]
      exact mem_append_right _ mem_cons_self
  · cases k with
    | nil => exact ⟨by simpa using hn, by simpa using hk.symm⟩
    | cons x k =>
      refine absurd ?_ ha'
      rw [(List.cons.inj hk).2]
      exact mem_append_right _ mem_cons_self

/-- **Versions without a hyphen**: on one architecture the stem determines the name and the
version. -/
theorem stem_inj (hv : '-' ∉ v) (hv' : '-' ∉ v')
    (h : n ++ '-' :: (v ++ '-' :: a) = n' ++ '-' :: (v' ++ '-' :: a)) : n = n' ∧ v = v' := by
  have hassoc : ∀ n v : Text, n ++ '-' :: (v ++ '-' :: a) = (n ++ '-' :: v) ++ '-' :: a := by
    intro n v
    rw [append_assoc, cons_append]
  rw [hassoc, hassoc] at h
  exact append_cons_inj hv hv' (append_cancel_right h)

end

section
variable {catalogue request architecture stem name version : Text} {wanted : Option Text}

theorem versionIn_some (h : versionIn name architecture stem = some version) :
    stem = name ++ '-' :: (version ++ '-' :: architecture) ∧ version ≠ [] ∧ '-' ∉ version := by
  simp only [versionIn, Option.filter_eq_some_iff, Option.bind_eq_some_iff,
    dropPrefix?_eq_some_iff, dropSuffix?_eq_some_iff, beq_iff_eq,
    decide_eq_true_eq] at h
  obtain ⟨⟨s, ⟨s', ⟨s'', ⟨_, rfl, rfl⟩, _, rfl, rfl⟩, _, rfl, rfl⟩, _, rfl, rfl⟩, hversion⟩ := h
  exact ⟨by simp, hversion⟩

/-- A stem that answers a request. -/
def Answers (name : Text) (wanted : Option Text) (architecture stem : Text) : Prop :=
  ∃ version, versionIn name architecture stem = some version ∧ ∀ w, wanted = some w → w = version

theorem findStem_answers {found found' : Option Text}
    (hfound : ∀ s, found = some s → Answers name wanted architecture s)
    (h : findStem name wanted architecture found stem = .ok found') :
    ∀ s, found' = some s → Answers name wanted architecture s := by
  cases hversion : versionIn name architecture stem with
  | none =>
    rw [findStem, hversion] at h
    cases h
    exact hfound
  | some version =>
    rw [findStem, hversion] at h
    dsimp only at h
    split_ifs at h with hother hseveral
    · cases h
      exact hfound
    · cases h
      rintro s ⟨⟩
      refine ⟨version, hversion, ?_⟩
      rintro w rfl
      simpa using hother

theorem cataloguedStem_ok (h : cataloguedStem catalogue request architecture = .ok stem) :
    Answers (requested request).1 (requested request).2 architecture stem := by
  simp only [cataloguedStem] at h
  split_ifs at h
  obtain ⟨found, hfold, h⟩ := bind_eq_ok.mp h
  have hfound := foldlM_invariant (fun found => ∀ s, found = some s →
      Answers (requested request).1 (requested request).2 architecture s)
    (fun _ _ _ => findStem_answers) (fun s hs => by cases hs) hfold
  cases found with
  | none => cases h
  | some s =>
    cases h
    exact hfound _ rfl

end

/-! ### What is installed -/

section
variable {sha256 : Bytes → Digest} {catalogue stem : Text} {bytes : Bytes} {i : Installable}
  {package : Package}

/-- What an installation means: the catalogue has the digest of the bytes under the stem, and what
is installed is a member named after the package, with the digest it has. -/
structure Installed (sha256 : Bytes → Digest) (catalogue : Text) (bytes : Bytes)
    (i : Installable) (package : Package) : Prop where
  parsed : Package.parse bytes = .ok package
  vouched : expectedInManifest catalogue package.stem = some (sha256 bytes)
  program : i.program = package.name
  digest : i.digest = sha256 i.bytes

theorem installable_ok (h : installable sha256 catalogue bytes = .ok i) :
    ∃ package, Installed sha256 catalogue bytes i package := by
  obtain ⟨package, hparse, h⟩ := bind_eq_ok.mp h
  refine ⟨package, ?_⟩
  cases hexpected : expectedInManifest catalogue package.stem with
  | none =>
    rw [hexpected] at h
    cases h
  | some expected =>
    rw [hexpected] at h
    dsimp only at h
    split_ifs at h with hsha
    cases hindex : package.indexOf package.name with
    | none =>
      rw [hindex] at h
      cases h
    | some index =>
      rw [hindex] at h
      dsimp only at h
      split at h
      · split_ifs at h with hmember
        cases h
        exact ⟨mapError_eq_ok hparse, by rw [hexpected, not_not.mp hsha], rfl,
          (not_not.mp hmember).symm⟩
      · cases h

theorem installableAs_eq {member : Bytes} (hparse : Package.parse bytes = .ok package)
    (hstem : package.stem = stem) (hvouched : expectedInManifest catalogue stem = some (sha256 bytes))
    (hindex : package.indexOf package.name = some index)
    (hmember : package.member index = some member)
    (hdigest : package.memberDigest index = some (sha256 member)) :
    installableAs sha256 catalogue stem bytes = .ok ⟨package.name, member, sha256 member⟩ := by
  have hread : (Package.parse bytes).mapError (fun _ => Refusal.unreadable) = .ok package := by
    rw [hparse]
    rfl
  have hinstall : installable sha256 catalogue bytes = .ok ⟨package.name, member, sha256 member⟩ := by
    refine bind_eq_ok.mpr ⟨package, hread, ?_⟩
    simp [hstem, hvouched, hindex, hmember, hdigest]
  refine bind_eq_ok.mpr ⟨package, hread, ?_⟩
  rw [if_neg (not_not.mpr hstem)]
  exact hinstall

theorem installableAs_ok (h : installableAs sha256 catalogue stem bytes = .ok i) :
    ∃ package, Installed sha256 catalogue bytes i package ∧ package.stem = stem := by
  obtain ⟨package, hparse, h⟩ := bind_eq_ok.mp h
  split_ifs at h with hstem
  obtain ⟨package', hinstalled⟩ := installable_ok h
  obtain rfl : package = package' :=
    Except.ok.inj ((mapError_eq_ok hparse).symm.trans hinstalled.parsed)
  exact ⟨package, hinstalled, not_not.mp hstem⟩

end

/-- What a fetch by name owes the person who asked. -/
structure Fetched (sha256 : Bytes → Digest) (catalogue request architecture stem : Text)
    (bytes : Bytes) (i : Installable) : Prop where
  /-- The program is the one that was named. -/
  program : i.program = (requested request).1
  /-- The version is the one asked for, when one was. -/
  version : ∀ v, (requested request).2 = some v → field bytes (8 + nameLen) = v
  architecture : field bytes (8 + nameLen * 2) = architecture
  /-- The catalogue has the digest of the whole package. -/
  vouched : expectedInManifest catalogue stem = some (sha256 bytes)
  digest : i.digest = sha256 i.bytes

theorem parse_bytes {bytes : Bytes} {package : Package} (h : Package.parse bytes = .ok package) :
    package.bytes = bytes := by
  simp only [Package.parse] at h
  split_ifs at h
  cases h
  rfl

/-- **What is fetched by name is the program that was named** exactly when the package is for the
architecture that is asked for and its version holds no hyphen. -/
theorem fetched_is_requested_iff (sha256 : Bytes → Digest)
    (catalogue request architecture stem : Text) (bytes : Bytes) (i : Installable)
    (hstem : cataloguedStem catalogue request architecture = .ok stem)
    (hinstall : installableAs sha256 catalogue stem bytes = .ok i) :
    Fetched sha256 catalogue request architecture stem bytes i ↔
      '-' ∉ field bytes (8 + nameLen) ∧ field bytes (8 + nameLen * 2) = architecture := by
  obtain ⟨version, hin, hwanted⟩ := cataloguedStem_ok hstem
  obtain ⟨hcat, -, hhyphen⟩ := versionIn_some hin
  obtain ⟨package, hinstalled, hsame⟩ := installableAs_ok hinstall
  have hbytes := parse_bytes hinstalled.parsed
  have hstems := hsame.trans hcat
  rw [Package.stem, Package.version, Package.architecture, hbytes] at hstems
  constructor
  · intro h
    refine ⟨?_, h.architecture⟩
    -- between the same name and the same architecture is the same version
    rw [← hinstalled.program, h.program, h.architecture] at hstems
    have hsame' := (List.cons.inj (append_cancel_left hstems)).2
    rw [append_cancel_right hsame']
    exact hhyphen
  · rintro ⟨hversion, harchitecture⟩
    rw [harchitecture] at hstems
    obtain ⟨hname, hver⟩ := stem_inj hversion hhyphen hstems
    refine ⟨hinstalled.program.trans hname, fun v hv => ?_, harchitecture, ?_, hinstalled.digest⟩
    · rw [hwanted v hv]
      exact hver
    · rw [← hsame]
      exact hinstalled.vouched

/-- A package of one empty program: its header and its table, without the digest at the end. -/
def headed (name version : String) : Bytes :=
  let padded (field : String) : Bytes :=
    field.toUTF8.toList ++ List.replicate (nameLen - field.length) 0
  magic ++ padded name ++ padded version ++ padded "riscv64" ++ [1, 0, 0, 0, 0, 0, 0, 0] ++
    padded name ++ [184, 0, 0, 0, 0, 0, 0, 0]

def packageOf (name version : String) : Bytes := headed name version ++ (sha256 []).bytes

/-- A catalogue of one package. -/
def catalogueOf (stem : String) (bytes : Bytes) : Text :=
  Text.unlines [stem.toList ++ ' ' :: hex (sha256 bytes)]

/-- The package `tar` in the version `1`, asked for with and without the version. -/
theorem fetched_is_requested_iff_tar :
    let zeros : Bytes → Digest := fun _ => ⟨List.replicate 32 0, rfl⟩
    let bytes := packageOf zeros "tar" "1"
    Fetched zeros (catalogueOf zeros "tar-1-riscv64" bytes) "tar@1".toList "riscv64".toList
      "tar-1-riscv64".toList bytes ⟨"tar".toList, [], zeros []⟩ :=
  (fetched_is_requested_iff _ _ _ _ _ _ _ (by decide +kernel) (by decide +kernel)).mpr
    (by decide +kernel)

/-! ### A version with a hyphen -/

theorem trim_hex (d : Digest) : (hex d).trim = hex d :=
  Text.trim_eq_self (fun _ hc => (digit_plain (mem_hexDigits_of_mem_hex (mem_of_head? hc))).1)
    fun _ hc => (digit_plain (mem_hexDigits_of_mem_hex (mem_of_getLast? hc))).1

theorem readable_line {stem : Text} {d : Digest} (hspace : ' ' ∉ stem) (hline : '\n' ∉ stem)
    (hfirst : ∃ c, stem.head? = some c ∧ Text.isWhitespace c = false ∧ c ≠ '#') :
    readable (Text.unlines [stem ++ ' ' :: hex d]) = [(stem, d)] := by
  have hplain : Plain (stem ++ ' ' :: hex d) := by
    obtain ⟨c, hc, hplain⟩ := hfirst
    refine ⟨?_, ⟨c, ?_, hplain⟩, fun c hlast => ?_⟩
    · have hhex := notMem_hex (c := '\n') d (by decide)
      simp [hline, hhex]
    · rw [head?_append, hc]
      rfl
    · rw [getLast?_append_of_ne_nil _ (cons_ne_nil _ _),
        getLast?_cons_of_ne_nil (hex_ne_nil d)] at hlast
      exact (digit_plain (mem_hexDigits_of_mem_hex (mem_of_getLast? hlast))).1
  have hall : ∀ c ∈ stem, (c != ' ') = true := fun c hc => bne_iff_ne.mpr fun h => hspace (h ▸ hc)
  have hsplit : splitOnce ' ' (stem ++ ' ' :: hex d) = some (stem, hex d) := by
    rw [splitOnce, takeWhile_append_of_pos hall, dropWhile_append_of_pos hall]
    simp
  rw [readable, manifestEntries, statements_unlines (by simpa using hplain), map_singleton,
    manifestEntry, hsplit]
  simp only [trim_hex, parseHex_hex]
  rfl

def tarGnu : Package where
  bytes := packageOf sha256 "tar" "gnu-1"
  count := 1
  table := by
    rw [packageOf, length_append, (sha256 []).length]
    decide +kernel
  inside := by
    intro index hindex
    obtain rfl : index = 0 := by omega
    simp only [extent, packageOf]
    rw [part_append (by decide +kernel), part_append (by decide +kernel), length_append,
      (sha256 []).length]
    decide +kernel

theorem parse_tarGnu : Package.parse (packageOf sha256 "tar" "gnu-1") = .ok (tarGnu sha256) := by
  have hmagic : (packageOf sha256 "tar" "gnu-1").take 8 = magic := by
    rw [packageOf, take_append_of_le_length (by decide +kernel)]
    decide +kernel
  have hcount : le (part (packageOf sha256 "tar" "gnu-1") (headerLen - 8) 4) = 1 := by
    rw [packageOf, part_append (by decide +kernel)]
    decide +kernel
  have hlen : headerLen + 1 * memberLen ≤ (packageOf sha256 "tar" "gnu-1").length :=
    (tarGnu sha256).table
  have hinside : ∀ index < 1, (extent (packageOf sha256 "tar" "gnu-1") index).1 +
      (extent (packageOf sha256 "tar" "gnu-1") index).2 ≤
      (packageOf sha256 "tar" "gnu-1").length := (tarGnu sha256).inside
  have hheader : ¬(packageOf sha256 "tar" "gnu-1").length < headerLen :=
    not_lt.mpr ((Nat.le_add_right _ _).trans hlen)
  simp only [Package.parse, hmagic, hcount, hheader, ne_eq, not_true_eq_false, or_self, if_false]
  rw [if_neg (by decide), dif_pos hlen, dif_pos hinside]
  rfl

theorem field_tarGnu {start : Nat} (h : start + nameLen ≤ 152) :
    field (tarGnu sha256).bytes start = field (headed "tar" "gnu-1") start := by
  have hlen : (headed "tar" "gnu-1").length = 152 := by decide +kernel
  simp only [field, tarGnu, packageOf]
  rw [part_append (by rw [hlen]; exact h)]

theorem name_tarGnu : (tarGnu sha256).name = "tar".toList := by
  rw [Package.name, field_tarGnu sha256 (by decide)]
  decide +kernel

theorem stem_tarGnu : (tarGnu sha256).stem = "tar-gnu-1-riscv64".toList := by
  rw [Package.stem, Package.name, Package.version, Package.architecture,
    field_tarGnu sha256 (by decide), field_tarGnu sha256 (by decide),
    field_tarGnu sha256 (by decide)]
  decide +kernel

theorem member_tarGnu : (tarGnu sha256).indexOf "tar".toList = some 0 ∧
    (tarGnu sha256).member 0 = some [] ∧ (tarGnu sha256).memberDigest 0 = some (sha256 []) := by
  have hpos : 0 < (tarGnu sha256).count := Nat.one_pos
  refine ⟨?_, ?_, ?_⟩
  · have hname : (tarGnu sha256).memberName 0 = some "tar".toList := by
      rw [Package.memberName, if_pos hpos, field_tarGnu sha256 (by decide)]
      decide +kernel
    exact find?_cons_of_pos (by simpa using hname)
  · have hextent : (extent (tarGnu sha256).bytes 0).2 = 0 := by
      simp only [extent, tarGnu, packageOf]
      rw [part_append (by decide +kernel)]
      decide +kernel
    rw [Package.member, if_pos hpos, hextent, part, take_zero]
  · have hlen : (headed "tar" "gnu-1").length = headerLen + 0 * memberLen + nameLen + 8 := by
      decide +kernel
    rw [Package.memberDigest, dif_pos hpos]
    simp only [tarGnu, packageOf, part, ← hlen, drop_left]
    congr 2
    exact take_of_length_le (sha256 []).length.le

/-- Asking for `tar-gnu` installs `tar`, whatever the hash: the catalogue has one line, for the
package `tar` in the version `gnu-1`, and the source serves that package. -/
theorem hyphenated_version_installs_other :
    "tar".toList ≠ "tar-gnu".toList ∧ ∀ sha256 : Bytes → Digest,
      let bytes := packageOf sha256 "tar" "gnu-1"
      let catalogue := catalogueOf sha256 "tar-gnu-1-riscv64" bytes
      cataloguedStem catalogue "tar-gnu".toList "riscv64".toList = .ok "tar-gnu-1-riscv64".toList ∧
      installableAs sha256 catalogue "tar-gnu-1-riscv64".toList bytes =
        .ok ⟨"tar".toList, [], sha256 []⟩ := by
  refine ⟨by decide, fun sha256 => ?_⟩
  have hread : readable (catalogueOf sha256 "tar-gnu-1-riscv64" (packageOf sha256 "tar" "gnu-1")) =
      [("tar-gnu-1-riscv64".toList, sha256 (packageOf sha256 "tar" "gnu-1"))] :=
    readable_line (by decide) (by decide) ⟨'t', by decide⟩
  refine ⟨?_, ?_⟩
  · simp only [cataloguedStem, hread, map_cons, map_nil]
    decide +kernel
  · obtain ⟨hindex, hmember, hdigest⟩ := member_tarGnu sha256
    have hexpected : expectedInManifest
        (catalogueOf sha256 "tar-gnu-1-riscv64" (packageOf sha256 "tar" "gnu-1"))
        "tar-gnu-1-riscv64".toList = some (sha256 (packageOf sha256 "tar" "gnu-1")) := by
      rw [expectedInManifest, hread, find?_cons_of_pos (by simp)]
      rfl
    rw [← name_tarGnu sha256] at hindex ⊢
    exact installableAs_eq (parse_tarGnu sha256) (stem_tarGnu sha256) hexpected hindex hmember hdigest

end Nife.Packages
