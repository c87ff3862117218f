import Mathlib
import Sharko.Library.Delimiting
import Sharko.Script.LocalStorage

/-! The storage files of origins. The name of a file is the serialized origin with every character
that is not a letter, a digit, a dot or a hyphen replaced, so some origins share a file. -/

namespace Sharko.Script.LocalStorage
open Library

inductive Origin where
  | tuple (scheme host : String) (port : Nat)
  | unique

structure Url where
  scheme : String
  origin : Origin

def defaultPort (scheme : String) : Option Nat :=
  if scheme = "http" ∨ scheme = "ws" then some 80
  else if scheme = "https" ∨ scheme = "wss" then some 443
  else if scheme = "ftp" then some 21
  else none

def Origin.asciiSerialization : Origin → String
  | .tuple scheme host port =>
    scheme ++ "://" ++ host ++ if defaultPort scheme = some port then "" else ":" ++ port.repr
  | .unique => "null"

def storageOrigin (url : Url) : Option String :=
  match url.origin with
  | .tuple _ _ _ => some url.origin.asciiSerialization
  | .unique => if url.scheme = "file" then some "file://" else none

def Storage.new (profileDir : String) (url : Url) : Storage :=
  let origin := storageOrigin url
  { profileDir := profileDir
    origin := origin
    localArea := none
    journal := []
    dirty := false
    persist := origin.isSome && profileDir ≠ "" }

def Url.place (url : Url) : Option (String × String × Option Nat) :=
  match url.origin with
  | .tuple scheme host port => some (scheme,host,some port)
  | .unique => if url.scheme = "file" then some ("file","",none) else none

/-- Schemes and domains have no colon; the other hosts are in brackets. -/
structure Url.Parsed (url : Url) : Prop where
  scheme : ∀ scheme host port,url.origin = .tuple scheme host port →
    ':' ∉ scheme.toList ∧ scheme ≠ "file"
  host : ∀ scheme host port,url.origin = .tuple scheme host port →
    ':' ∉ host.toList ∨ host.toList.getLast? = some ']'

theorem repr_injective {m n : Nat} (same : Nat.toDigits 10 m = Nat.toDigits 10 n) : m = n := by
  rw [← Nat.ofDigitChars_ten_toDigits (n := m),same,Nat.ofDigitChars_ten_toDigits]

theorem colon_digits (n : Nat) : ':' ∉ Nat.toDigits 10 n := by
  intro inside
  have digit := Nat.isDigit_of_mem_toDigits (by decide) (le_refl 10) inside
  revert digit
  decide

theorem host_port {host host' : List Char} (closed : ':' ∉ host ∨ host.getLast? = some ']') (port : Nat) :
    host ≠ host' ++ ':' :: Nat.toDigits 10 port := by
  intro ends
  obtain missing | bracket := closed
  · exact missing (by simp [ends])
  · have inside : ']' ∈ Nat.toDigits 10 port := by
      rw [ends,List.getLast?_append_of_ne_nil _ (List.cons_ne_nil _ _),
        List.getLast?_cons_of_ne_nil Nat.toDigits_ne_nil] at bracket
      exact List.mem_of_getLast? bracket
    have digit := Nat.isDigit_of_mem_toDigits (by decide) (le_refl 10) inside
    revert digit
    decide

def portDigits (scheme : String) (port : Nat) : List Char :=
  if defaultPort scheme = some port then [] else ':' :: Nat.toDigits 10 port

theorem serialization_list (scheme host : String) (port : Nat) :
    (Origin.tuple scheme host port).asciiSerialization.toList =
      scheme.toList ++ ':' :: ('/' :: '/' :: (host.toList ++ portDigits scheme port)) := by
  rw [Origin.asciiSerialization,portDigits]
  split_ifs <;> simp

theorem host_ports {scheme : String} {host host' : List Char} {port port' : Nat}
    (closed : ':' ∉ host ∨ host.getLast? = some ']') (closed' : ':' ∉ host' ∨ host'.getLast? = some ']')
    (same : host ++ portDigits scheme port = host' ++ portDigits scheme port') :
    host = host' ∧ port = port' := by
  unfold portDigits at same
  split_ifs at same with usual usual' usual'
  · rw [List.append_nil,List.append_nil] at same
    exact ⟨same,Option.some.inj (usual.symm.trans usual')⟩
  · rw [List.append_nil] at same
    exact absurd same (host_port closed port')
  · rw [List.append_nil] at same
    exact absurd same.symm (host_port closed' port)
  · -- The last colon is the one before the port.
    have reversed := congrArg List.reverse same
    simp only [List.reverse_append,List.reverse_cons,List.append_assoc,List.singleton_append] at reversed
    have clean : ∀ n,':' ∉ (Nat.toDigits 10 n).reverse := fun n inside =>
      colon_digits n (List.mem_reverse.mp inside)
    obtain ⟨digits,hosts⟩ := Delimiting.first_unique (clean port) (clean port') reversed
    exact ⟨List.reverse_injective hosts,repr_injective (List.reverse_injective digits)⟩

theorem serialization_injective {scheme scheme' host host' : String} {port port' : Nat}
    (plain : ':' ∉ scheme.toList) (plain' : ':' ∉ scheme'.toList)
    (closed : ':' ∉ host.toList ∨ host.toList.getLast? = some ']')
    (closed' : ':' ∉ host'.toList ∨ host'.toList.getLast? = some ']')
    (same : (Origin.tuple scheme host port).asciiSerialization =
      (Origin.tuple scheme' host' port').asciiSerialization) :
    scheme = scheme' ∧ host = host' ∧ port = port' := by
  have lists := congrArg String.toList same
  rw [serialization_list,serialization_list] at lists
  obtain ⟨schemes,rest⟩ := Delimiting.first_unique plain plain' lists
  have same_scheme := String.toList_injective schemes
  subst same_scheme
  obtain ⟨hosts,ports⟩ := host_ports closed closed' (List.cons.inj (List.cons.inj rest).2).2
  exact ⟨rfl,String.toList_injective hosts,ports⟩

theorem serialization_file {scheme host : String} {port : Nat} (plain : ':' ∉ scheme.toList)
    (other : scheme ≠ "file") : (Origin.tuple scheme host port).asciiSerialization ≠ "file://" := by
  intro same
  have lists := congrArg String.toList same
  rw [serialization_list] at lists
  have file : "file://".toList = "file".toList ++ ':' :: ['/','/'] := rfl
  rw [file] at lists
  obtain ⟨schemes,-⟩ := Delimiting.first_unique plain (by decide) lists
  exact other (String.toList_injective schemes)

theorem storageOrigin_iff {u v : Url} (parsed : u.Parsed) (parsed' : v.Parsed) :
    storageOrigin u = storageOrigin v ↔ u.place = v.place := by
  obtain ⟨scheme,origin⟩ := u
  obtain ⟨scheme',origin'⟩ := v
  cases origin with
  | tuple s h p =>
    obtain ⟨plain,other⟩ := parsed.scheme s h p rfl
    have closed := parsed.host s h p rfl
    cases origin' with
    | tuple s' h' p' =>
      obtain ⟨plain',-⟩ := parsed'.scheme s' h' p' rfl
      have closed' := parsed'.host s' h' p' rfl
      constructor
      · intro same
        obtain ⟨rfl,rfl,rfl⟩ :=
          serialization_injective plain plain' closed closed' (Option.some.inj same)
        rfl
      · intro same
        cases same
        rfl
    | unique =>
      simp only [storageOrigin,Url.place]
      split_ifs
      · simp [serialization_file plain other,other]
      · simp
  | unique =>
    cases origin' with
    | tuple s' h' p' =>
      obtain ⟨plain',other'⟩ := parsed'.scheme s' h' p' rfl
      simp only [storageOrigin,Url.place]
      split_ifs
      · simp [(serialization_file plain' other').symm,other'.symm]
      · simp
    | unique =>
      simp only [storageOrigin,Url.place]
      split_ifs <;> simp

def kept (c : Char) : Bool := c.isAlphanum || c == '.' || c == '-'

/-- Origins of one length that have the same characters but where neither stays. -/
def Alike (origin origin' : String) : Prop :=
  List.Forall₂ (fun c d => c = d ∨ kept c = false ∧ kept d = false) origin.toList origin'.toList

theorem replaced_eq_iff (c d : Char) : (if kept c then c else '_') = (if kept d then d else '_') ↔
      c = d ∨ kept c = false ∧ kept d = false := by
  have apart : ∀ c d,kept c = true → kept d = false → c ≠ d ∧ c ≠ '_' := by
    intro c d stays goes
    constructor
    · intro same
      rw [same,goes] at stays
      cases stays
    · intro same
      rw [same] at stays
      revert stays
      decide
  cases here : kept c with
  | false =>
    cases there : kept d with
    | false => simp
    | true => simp [(apart d c there here).1.symm,(apart d c there here).2.symm]
  | true =>
    cases there : kept d with
    | false => simp [(apart c d here there).1,(apart c d here there).2]
    | true => simp

theorem fileNameFor_eq_iff (origin origin' : String) :
    fileNameFor origin = fileNameFor origin' ↔ Alike origin origin' := by
  have named : ∀ origin,(fileNameFor origin).toList =
      (origin.toList.map fun c => if kept c then c else '_') ++ ".json".toList := by
    intro origin
    simp [fileNameFor,kept]
  rw [← String.toList_inj,named,named,List.append_left_inj,← List.forall₂_eq_eq_eq,
    List.forall₂_map_left_iff,List.forall₂_map_right_iff,Alike]
  simp only [replaced_eq_iff]

theorem new_path {profileDir : String} (some_ : profileDir ≠ "") {url : Url} {origin : String}
    (key : storageOrigin url = some origin) :
    (Storage.new profileDir url).path = some (.stored profileDir (fileNameFor origin)) := by
  simp [Storage.new,Storage.path,key,some_]

/-- Documents that differ in scheme, host or port have files of their own unless their serialized
origins differ only in characters that names of files do not keep. -/
theorem separate_files_iff {profileDir : String} (some_ : profileDir ≠ "") {u v : Url} {origin origin' : String}
    (parsed : u.Parsed) (parsed' : v.Parsed) (key : storageOrigin u = some origin)
    (key' : storageOrigin v = some origin') :
    (u.place ≠ v.place → (Storage.new profileDir u).path ≠ (Storage.new profileDir v).path) ↔
      (Alike origin origin' → origin = origin') := by
  rw [new_path some_ key,new_path some_ key',not_imp_not,← storageOrigin_iff parsed parsed',key,key',
    Option.some_inj,Option.some_inj,File.stored.injEq,fileNameFor_eq_iff]
  simp only [true_and]

/-- A host with an underscore has the file of the host with a port. -/
theorem port_underscore_shared :
    (Url.mk "http" (.tuple "http" "a" 8080)).place ≠ (Url.mk "http" (.tuple "http" "a_8080" 80)).place ∧
      (Storage.new "profile" (Url.mk "http" (.tuple "http" "a" 8080))).path =
        (Storage.new "profile" (Url.mk "http" (.tuple "http" "a_8080" 80))).path := by
  decide

theorem parsed_plain {scheme : String} {host : String} {port : Nat} (plain : ':' ∉ scheme.toList)
    (other : scheme ≠ "file") (domain : ':' ∉ host.toList) :
    (Url.mk scheme (.tuple scheme host port)).Parsed where
  scheme := by
    intro s h p same
    cases same
    exact ⟨plain,other⟩
  host := by
    intro s h p same
    cases same
    exact Or.inl domain

theorem separate_files_hosts :
    ((Url.mk "http" (.tuple "http" "a" 80)).place ≠ (Url.mk "http" (.tuple "http" "b" 80)).place →
      (Storage.new "profile" (Url.mk "http" (.tuple "http" "a" 80))).path ≠
        (Storage.new "profile" (Url.mk "http" (.tuple "http" "b" 80))).path) ↔
      (Alike "http://a" "http://b" → "http://a" = "http://b") :=
  separate_files_iff (by decide) (parsed_plain (by decide) (by decide) (by decide))
    (parsed_plain (by decide) (by decide) (by decide)) (by decide) (by decide)

end Sharko.Script.LocalStorage
