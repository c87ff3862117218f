import Mathlib
import Sharko.Library.Delimiting
import Sharko.Script.WebApi.Multipart

/-! The decoder of multipart bodies, and what it makes of the bodies of the encoder. -/

namespace Sharko.Script.WebApi

open Library TextDecoding Delimiting

/-! ### The source -/

def latin (bytes : Bytes) : Units := bytes.map UInt8.toNat

def charCodes (s : Units) : Bytes := s.map UInt8.ofNat

def isSpace (c : Nat) : Bool :=
  (9 ≤ c && c ≤ 13) || c == 32 || c == 0xa0 || c == 0x1680 || (0x2000 ≤ c && c ≤ 0x200a) || c == 0x2028 ||
    c == 0x2029 || c == 0x202f || c == 0x205f || c == 0x3000 || c == 0xfeff

def canonical (c : Nat) : Nat := if 97 ≤ c ∧ c ≤ 122 then c - 32 else c

def readQuoted (s : Units) : Option Units := if 34 ∈ s then some (s.takeWhile (· ≠ 34)) else none

def inLine (c : Nat) : Bool := c ≠ 13 && c ≠ 10

def readType (s : Units) : Option Units :=
  if s.dropWhile isSpace = [] then ((s.filter inLine).getLast?).map fun c => [c]
  else some ((s.dropWhile isSpace).takeWhile inLine)

def readBoundary (s : Units) : Option Units :=
  let quoted := s.tail.takeWhile (· ≠ 34)
  let bare := s.takeWhile fun c => !(c == 59 || isSpace c)
  if s.head? = some 34 ∧ quoted ≠ [] ∧ 34 ∈ s.tail then some quoted
  else if bare = [] then none else some bare

def toUSV : Units → Units
  | [] => []
  | [c] => [if 0xd800 ≤ c ∧ c ≤ 0xdfff then replacement else c]
  | c :: d :: rest =>
    if Utf16.IsHigh c ∧ Utf16.IsLow d then c :: d :: toUSV rest
    else (if 0xd800 ≤ c ∧ c ≤ 0xdfff then replacement else c) :: toUSV (d :: rest)

def toLowerCase (c : Nat) : Nat := if 65 ≤ c ∧ c ≤ 90 then c + 32 else c

def blobType (t : Units) : Units := if ∀ c ∈ t,32 ≤ c ∧ c ≤ 126 then t.map toLowerCase else []

def trimmed (sec : Units) : Units :=
  let led := if lit "\r\n" <+: sec then sec.drop 2 else sec
  if lit "\r\n" <:+ led then led.take (led.length - 2) else led

def entryOf (headers body : Units) : Option (Units × Value) :=
  (search canonical (lit "name=\"") readQuoted headers).map fun name =>
    (toUSV (utf8Decode (charCodes name)),
      match search canonical (lit "filename=\"") readQuoted headers with
      | some file =>
        .blob (some (toUSV (utf8Decode (charCodes file))))
          (blobType ((search canonical (lit "content-type:") readType headers).getD [])) (charCodes body)
      | none => .string (toUSV (utf8Decode (charCodes body))))

def sectionEntry (sec : Units) : Option (Units × Value) :=
  (cut (lit "\r\n\r\n") (trimmed sec)).bind fun p => entryOf p.1 p.2

def sectionEntries : List Units → List (Units × Value)
  | [] => []
  | sec :: rest => if lit "--" <+: sec then [] else (sectionEntry sec).toList ++ sectionEntries rest

def multipartDecode (bytes : Bytes) (contentType : Units) : Option (List (Units × Value)) :=
  (search canonical (lit "boundary=") readBoundary contentType).map fun boundary =>
    sectionEntries (splitFrom (lit "--" ++ boundary) 0 (latin bytes)).tail

def alphabet : List Char := "ABCDEFGHIJKLMNOPQRSTUVWXYZabcdefghijklmnopqrstuvwxyz0123456789".toList

def boundaryOf (random : Bytes) : List Char :=
  "----WebKitFormBoundary".toList ++ (random.map fun b => alphabet.getD (b.toNat % 62) 'A').take 16

def multipartType (boundary : Units) : Units := lit "multipart/form-data; boundary=" ++ boundary

/-! ### Strings and bytes -/

theorem charCodes_latin (bytes : Bytes) : charCodes (latin bytes) = bytes := by
  unfold charCodes latin
  rw [List.map_map]
  exact List.map_id'' (fun b => UInt8.ofNat_toNat) bytes

theorem latin_append (first second : Bytes) : latin (first ++ second) = latin first ++ latin second :=
  List.map_append

theorem latin_bytesOf {s : List Char} (ascii : ∀ c ∈ s,c.toNat < 0x80) : latin (bytesOf s) = unitsOf s := by
  induction s with
  | nil => rfl
  | cons c s ih =>
    have low := ascii c List.mem_cons_self
    have rest := ih fun d mem => ascii d (List.mem_cons_of_mem c mem)
    rw [unitsOf_cons,units_low low,← rest,bytesOf,List.flatMap_cons,encodePoint_low low,latin_append,
      List.singleton_append]
    have single : latin [UInt8.ofNat c.toNat] = [c.toNat] :=
      congrArg (fun n => [n]) (toNat_ofNat (show c.toNat < 256 by omega))
    rw [single]
    rfl

theorem toUSV_point {c : Nat} (scalar : IsScalar c) (rest : Units) :
    toUSV (fromCodePoint c ++ rest) = fromCodePoint c ++ toUSV rest := by
  unfold IsScalar at scalar
  unfold fromCodePoint
  by_cases small : c < 0x10000
  · rw [if_pos small,List.singleton_append,List.singleton_append]
    have plain : ¬ (0xd800 ≤ c ∧ c ≤ 0xdfff) := by omega
    cases rest with
    | nil =>
      have alone : toUSV [c] = [if 0xd800 ≤ c ∧ c ≤ 0xdfff then replacement else c] := rfl
      rw [alone,if_neg plain,toUSV]
    | cons d rest =>
      have high : ¬ Utf16.IsHigh c := fun high => plain ⟨high.1,high.2.trans (by decide)⟩
      rw [toUSV,if_neg fun both => high both.1,if_neg plain]
  · rw [if_neg small,List.cons_append,List.singleton_append,toUSV,if_pos]
    · rfl
    · unfold Utf16.IsHigh Utf16.IsLow
      omega

theorem toUSV_unitsOf (s : List Char) : toUSV (unitsOf s) = unitsOf s := by
  induction s with
  | nil => rw [unitsOf_nil,toUSV]
  | cons c s ih => rw [unitsOf_cons,toUSV_point (isScalar_toNat c),ih]

theorem decoded_latin (s : List Char) :
    toUSV (utf8Decode (charCodes (latin (bytesOf s)))) = unitsOf (returned s) := by
  rw [charCodes_latin,utf8Decode_returned,toUSV_unitsOf]

theorem unitsOf_injective : Function.Injective unitsOf := by
  intro s t same
  have read := congrArg (fun u => Utf8.decoder.read (utf8Encode u)) same
  simp only [bytesOf_eq,read_bytesOf] at read
  exact List.map_injective_iff.mpr (fun c d equal => Char.toNat_inj.mp (Option.some.inj equal)) read

/-! ### Headers -/

theorem canonical_quote (c : Nat) (same : canonical c = canonical 34) : c = 34 := by
  have quote : canonical 34 = 34 := rfl
  rw [quote] at same
  unfold canonical at same
  split_ifs at same
  · omega
  · exact same

theorem canonical_equals (c : Nat) (same : canonical c = canonical 61) : c = 61 := by
  have equals : canonical 61 = 61 := rfl
  rw [equals] at same
  unfold canonical at same
  split_ifs at same
  · omega
  · exact same

theorem takeWhile_stop {p : Nat → Bool} {first : Units} {x : Nat} (all : ∀ c ∈ first,p c = true)
    (stop : p x = false) (rest : Units) : (first ++ x :: rest).takeWhile p = first := by
  rw [List.takeWhile_append_of_pos all,List.takeWhile_cons_of_neg (Bool.not_eq_true _ ▸ stop),List.append_nil]

theorem readQuoted_append {value : Units} (absent : 34 ∉ value) (rest : Units) :
    readQuoted (value ++ 34 :: rest) = some value := by
  rw [readQuoted,if_pos (List.mem_append_right value List.mem_cons_self)]
  have other : ∀ c ∈ value,decide (c ≠ 34) = true := by
    intro c mem
    apply decide_eq_true
    rintro rfl
    exact absent mem
  rw [takeWhile_stop other rfl]

def disposition : Units := lit "Content-Disposition: form-data; name="

def textHeaders (name : Units) : Units := disposition ++ 34 :: (name ++ [34])

def fileHeaders (name file type : Units) : Units :=
  disposition ++ 34 :: (name ++ 34 :: (lit "; filename=" ++ 34 :: (file ++ 34 :: 13 :: 10 ::
    (lit "Content-Type: " ++ type))))

section
variable {name file type : Units}

theorem search_name (absent : 34 ∉ name) (rest : Units) :
    search canonical (lit "name=\"") readQuoted (disposition ++ 34 :: (name ++ 34 :: rest)) = some name := by
  rw [show lit "name=\"" = lit "name=" ++ [34] from rfl,search_last canonical_quote (by decide) (by decide),
    if_pos (by decide),readQuoted_append absent,Option.some_or]

theorem search_no_file (absent : 34 ∉ name) :
    search canonical (lit "filename=\"") readQuoted (textHeaders name) = none := by
  rw [show lit "filename=\"" = lit "filename=" ++ [34] from rfl,textHeaders,
    search_last canonical_quote (by decide) (by decide),if_neg (by decide),
    search_last canonical_quote (by decide) absent]
  split_ifs
  · rfl
  · rfl

theorem search_file (nameClean : 34 ∉ name) (fileClean : 34 ∉ file) :
    search canonical (lit "filename=\"") readQuoted (fileHeaders name file type) =
      some (if (lit "filename=").map canonical <:+ name.map canonical then lit "; filename=" else file) := by
  rw [show lit "filename=\"" = lit "filename=" ++ [34] from rfl,fileHeaders,
    search_last canonical_quote (by decide) (by decide),if_neg (by decide),
    search_last canonical_quote (by decide) nameClean]
  split_ifs
  · rw [readQuoted_append (by decide),Option.some_or]
  · rw [search_last canonical_quote (by decide) (by decide),if_pos (by decide),readQuoted_append fileClean,
      Option.some_or]

def after (key text : Units) : Option Units := search canonical key some text

theorem dropWhile_quoted (tail rest : Units) :
    (tail ++ 34 :: rest).dropWhile isSpace = (tail ++ [34]).dropWhile isSpace ++ rest ∧
      (tail ++ 34 :: rest).dropWhile isSpace ≠ [] := by
  induction tail with
  | nil => exact ⟨rfl,List.cons_ne_nil _ _⟩
  | cons c tail ih =>
    by_cases space : isSpace c = true
    · rw [List.cons_append,List.cons_append,List.dropWhile_cons_of_pos space,List.dropWhile_cons_of_pos space]
      exact ih
    · rw [List.cons_append,List.cons_append,List.dropWhile_cons_of_neg space,List.dropWhile_cons_of_neg space]
      exact ⟨by simp,List.cons_ne_nil _ _⟩

theorem readType_isSome (tail rest : Units) : (readType (tail ++ 34 :: rest)).isSome := by
  rw [readType,if_neg (dropWhile_quoted tail rest).2]
  rfl

theorem readType_space (rest : Units) : (readType (32 :: rest)).isSome := by
  unfold readType
  split_ifs with spaces
  · have line : (32 :: rest).filter inLine ≠ [] := List.ne_nil_of_mem (List.mem_filter.mpr ⟨List.mem_cons_self,rfl⟩)
    rw [List.getLast?_eq_some_getLast line]
    rfl
  · rfl

theorem readType_quoted {tail : Units} (line : ∀ c ∈ tail,inLine c = true) (rest : Units) :
    readType (tail ++ 34 :: 13 :: rest) = some ((tail ++ [34]).dropWhile isSpace) := by
  obtain ⟨dropped,inhabited⟩ := dropWhile_quoted tail (13 :: rest)
  rw [readType,if_neg inhabited,dropped,takeWhile_stop _ rfl]
  intro c mem
  rcases List.mem_append.mp ((List.dropWhile_suffix isSpace).subset mem) with inside | quote
  · exact line c inside
  · rw [List.mem_singleton.mp quote]
    rfl

def between : Units := lit "\"; filename=\""

def typeFound (name file type : Units) : Units :=
  match after (lit "content-type:") name with
  | some tail => (tail ++ between ++ file ++ [34]).dropWhile isSpace
  | none =>
    match after (lit "content-type:") file with
    | some tail => (tail ++ [34]).dropWhile isSpace
    | none => (readType (32 :: type)).getD []

theorem search_type (nameLine : ∀ c ∈ name,inLine c = true) (fileLine : ∀ c ∈ file,inLine c = true) :
    (search canonical (lit "content-type:") readType (fileHeaders name file type)).getD [] =
      typeFound name file type := by
  have missing : canonical 34 ∉ (lit "content-type:").map canonical := by decide
  have inhabited : lit "content-type:" ≠ [] := by decide
  rw [fileHeaders,search_across missing inhabited fun tail => readType_isSome tail _,
    show search canonical (lit "content-type:") some disposition = none by decide]
  dsimp only
  rw [search_across missing inhabited fun tail => readType_isSome tail _,typeFound]
  unfold after
  cases inName : search canonical (lit "content-type:") some name with
  | some tail =>
    dsimp only
    have lines : ∀ c ∈ tail ++ between ++ file,inLine c = true := by
      intro c mem
      rw [List.append_assoc] at mem
      rcases List.mem_append.mp mem with mem | mem
      · exact nameLine c ((search_suffix inName).subset mem)
      rcases List.mem_append.mp mem with mem | mem
      · exact (by decide : ∀ c ∈ between,inLine c = true) c mem
      · exact fileLine c mem
    have whole := readType_quoted lines (10 :: (lit "Content-Type: " ++ type))
    rw [show between = 34 :: lit "; filename=" ++ [34] from rfl] at whole ⊢
    simp only [List.append_assoc,List.cons_append,List.nil_append] at whole ⊢
    rw [whole,Option.getD_some]
  | none =>
    dsimp only
    rw [search_across missing inhabited fun tail => readType_isSome tail _,
      show search canonical (lit "content-type:") some (lit "; filename=") = none by decide]
    dsimp only
    rw [search_across missing inhabited fun tail => readType_isSome tail _]
    cases inFile : search canonical (lit "content-type:") some file with
    | some tail =>
      dsimp only
      have lines : ∀ c ∈ tail,inLine c = true := fun c mem => fileLine c ((search_suffix inFile).subset mem)
      rw [readType_quoted lines,Option.getD_some]
    | none =>
      dsimp only
      have key : lit "content-type:" = 99 :: lit "ontent-type:" := rfl
      have line : ∀ {c : Nat} {rest : Units},canonical c ≠ 67 →
          search canonical (lit "content-type:") readType (c :: rest) =
            search canonical (lit "content-type:") readType rest := by
        intro c rest other
        apply search_other
        rw [key]
        intro begins
        exact other (List.cons_prefix_cons.mp begins).1.symm
      rw [line (by decide),line (by decide)]
      have here : (lit "content-type:").map canonical <+: (67 :: (lit "ontent-Type: " ++ type)).map canonical :=
        ⟨(32 :: type).map canonical,rfl⟩
      rw [show lit "Content-Type: " ++ type = 67 :: (lit "ontent-Type: " ++ type) from rfl,search_here here]
      rw [show (67 :: (lit "ontent-Type: " ++ type)).drop (lit "content-type:").length = 32 :: type from rfl]
      obtain ⟨found,reads⟩ := Option.isSome_iff_exists.mp (readType_space type)
      rw [reads,Option.some_or]

/-! ### Sections -/

theorem trimmed_framed (inner : Units) : trimmed (lit "\r\n" ++ inner ++ lit "\r\n") = inner := by
  have led : lit "\r\n" <+: lit "\r\n" ++ inner ++ lit "\r\n" := by
    rw [List.append_assoc]
    exact List.prefix_append _ _
  have dropped : (lit "\r\n" ++ inner ++ lit "\r\n").drop 2 = inner ++ lit "\r\n" := rfl
  unfold trimmed
  rw [if_pos led,dropped]
  dsimp only
  rw [if_pos (List.suffix_append inner _),List.length_append]
  exact List.take_left

def section_ (headers body : Units) : Units := lit "\r\n" ++ (headers ++ lit "\r\n\r\n" ++ body) ++ lit "\r\n"

theorem cut_text (line : ∀ c ∈ name,inLine c = true) (body : Units) :
    cut (lit "\r\n\r\n") (textHeaders name ++ lit "\r\n\r\n" ++ body) = some (textHeaders name,body) := by
  have apart : 13 ∉ textHeaders name := by
    intro mem
    rcases List.mem_append.mp mem with mem | mem
    · exact absurd mem (by decide)
    rcases List.mem_cons.mp mem with same | mem
    · cases same
    rcases List.mem_append.mp mem with mem | mem
    · exact absurd (line 13 mem) (by decide)
    · exact absurd mem (by decide)
  have here : cut (13 :: [10,13,10]) (13 :: [10,13,10] ++ body) = some ([],body) := cut_here (by decide) body
  rw [show lit "\r\n\r\n" = 13 :: [10,13,10] from rfl]
  rw [List.append_assoc,cut_append apart,here,Option.map_some,List.append_nil]

theorem cut_file (nameLine : ∀ c ∈ name,inLine c = true) (fileLine : ∀ c ∈ file,inLine c = true)
    (typeLine : ∀ c ∈ type,inLine c = true) (body : Units) :
    cut (lit "\r\n\r\n") (fileHeaders name file type ++ lit "\r\n\r\n" ++ body) =
      some (fileHeaders name file type,body) := by
  let first := disposition ++ 34 :: (name ++ 34 :: (lit "; filename=" ++ 34 :: (file ++ [34])))
  let second := lit "Content-Type: " ++ type
  have whole : fileHeaders name file type = first ++ 13 :: 10 :: second := by
    simp [fileHeaders,first,second]
  have apart : 13 ∉ first := by
    simp only [first,List.mem_append,List.mem_cons,not_or]
    refine ⟨by decide,by decide,fun mem => absurd (nameLine 13 mem) (by decide),by decide,by decide,by decide,
      fun mem => absurd (fileLine 13 mem) (by decide),by decide⟩
  have apart' : 13 ∉ second := by
    simp only [second,List.mem_append,not_or]
    exact ⟨by decide,fun mem => absurd (typeLine 13 mem) (by decide)⟩
  have here : cut (13 :: [10,13,10]) (13 :: [10,13,10] ++ body) = some ([],body) := cut_here (by decide) body
  rw [show lit "\r\n\r\n" = 13 :: [10,13,10] from rfl]
  have later : ¬ [13,10,13,10] <+: 13 :: (10 :: second ++ ([13,10,13,10] ++ body)) := by
    intro begins
    have third := List.cons_prefix_cons.mp (List.cons_prefix_cons.mp (List.cons_prefix_cons.mp begins).2).2
    exact absurd third.1 (by decide)
  have feed : ¬ [13,10,13,10] <+: 10 :: (second ++ ([13,10,13,10] ++ body)) := by
    intro begins
    exact absurd (List.cons_prefix_cons.mp begins).1 (by decide)
  rw [whole,List.append_assoc,List.append_assoc,cut_append apart,List.cons_append,cut_cons later,List.cons_append,
    cut_cons feed,cut_append apart',here]
  simp

theorem sectionEntry_text (clean : 34 ∉ name) (line : ∀ c ∈ name,inLine c = true) (body : Units) :
    sectionEntry (section_ (textHeaders name) body) =
      some (toUSV (utf8Decode (charCodes name)),.string (toUSV (utf8Decode (charCodes body)))) := by
  unfold sectionEntry section_
  rw [trimmed_framed,cut_text line,Option.bind_some]
  unfold entryOf
  rw [search_no_file clean,textHeaders,search_name clean [],Option.map_some]

theorem sectionEntry_file (nameClean : 34 ∉ name) (fileClean : 34 ∉ file) (nameLine : ∀ c ∈ name,inLine c = true)
    (fileLine : ∀ c ∈ file,inLine c = true) (typeLine : ∀ c ∈ type,inLine c = true) (body : Units) :
    sectionEntry (section_ (fileHeaders name file type) body) = some (toUSV (utf8Decode (charCodes name)),
        .blob (some (toUSV (utf8Decode (charCodes
          (if (lit "filename=").map canonical <:+ name.map canonical then lit "; filename=" else file)))))
          (blobType (typeFound name file type)) (charCodes body)) := by
  unfold sectionEntry section_
  rw [trimmed_framed,cut_file nameLine fileLine typeLine,Option.bind_some]
  unfold entryOf
  rw [search_file nameClean fileClean,search_type nameLine fileLine,fileHeaders,search_name nameClean,
    Option.map_some]

end

/-! ### Entries -/

/-- The type of a `Blob`: lower-cased ASCII, or nothing. -/
structure FileType where
  text : List Char
  normal : blobType (unitsOf text) = unitsOf text

inductive FormEntry where
  | text (name value : List Char)
  | file (name fileName : List Char) (type : FileType) (bytes : Bytes)

namespace FormEntry

def source : FormEntry → Units × Value
  | .text name value => (unitsOf name,.string (unitsOf value))
  | .file name fileName type bytes =>
    (unitsOf name,.blob (some (unitsOf fileName)) (unitsOf type.text) bytes)

def normalized : FormEntry → Units × Value
  | .text name value => (unitsOf name,.string (unitsOf (crlf value)))
  | .file name fileName type bytes => (FormEntry.file name fileName type bytes).source

def pieces : FormEntry → List Bytes
  | .text name value => [bytesOf name,bytesOf value]
  | .file name fileName type bytes => [bytesOf name,bytesOf fileName,bytesOf type.text,bytes]

def sectionOf : FormEntry → Units
  | .text name value => section_ (textHeaders (latin (bytesOf (escape name)))) (latin (bytesOf (crlf value)))
  | .file name fileName type bytes =>
    section_ (fileHeaders (latin (bytesOf (escape name))) (latin (bytesOf (escape fileName)))
      (latin (bytesOf (typeOf type.text)))) (latin bytes)

def decoded : FormEntry → Units × Value
  | .text name value => (unitsOf (returned (escape name)),.string (unitsOf (returned (crlf value))))
  | .file name fileName type bytes =>
    let raw := latin (bytesOf (escape name))
    let file := latin (bytesOf (escape fileName))
    (unitsOf (returned (escape name)),
      .blob (some (if (lit "filename=").map canonical <:+ raw.map canonical then lit "; filename="
          else unitsOf (returned (escape fileName))))
        (blobType (typeFound raw file (latin (bytesOf (typeOf type.text))))) bytes)

end FormEntry

def delimiter (random : Bytes) : List Char := "--".toList ++ boundaryOf random

theorem latin_head (boundary name : List Char) : latin (bytesOf (headOf boundary name)) =
    latin (bytesOf ("--".toList ++ boundary)) ++ lit "\r\n" ++ disposition ++ 34 :: (latin (bytesOf (escape name)) ++ [34]) := by
  have start : latin (bytesOf "\r\nContent-Disposition: form-data; name=\"".toList) =
      lit "\r\n" ++ (disposition ++ [34]) := by decide
  have quote : latin (bytesOf "\"".toList) = [34] := by decide
  simp only [headOf,bytesOf_append,latin_append,start,quote,List.append_assoc,List.cons_append,List.nil_append]

theorem latin_part (boundary : List Char) (e : FormEntry) :
    latin (part (unitsOf boundary) e.source) = latin (bytesOf ("--".toList ++ boundary)) ++ e.sectionOf := by
  have line : latin (bytesOf "\r\n".toList) = lit "\r\n" := by decide
  have lines : latin (bytesOf "\r\n\r\n".toList) = lit "\r\n\r\n" := by decide
  cases e with
  | text name value =>
    rw [FormEntry.source,part_string]
    simp only [FormEntry.sectionOf,section_,textHeaders,bytesOf_append,latin_append,latin_head,line,lines,
      List.append_assoc,List.cons_append,List.nil_append]
  | file name fileName type bytes =>
    have middle : latin (bytesOf "; filename=\"".toList) = lit "; filename=" ++ [34] := by decide
    have typed : latin (bytesOf "\"\r\nContent-Type: ".toList) = 34 :: 13 :: 10 :: lit "Content-Type: " := by decide
    rw [FormEntry.source,part_blob]
    simp only [FormEntry.sectionOf,section_,fileHeaders,bytesOf_append,latin_append,latin_head,line,lines,middle,
      typed,List.append_assoc,List.cons_append,List.nil_append]

/-! ### Characters in a body -/

theorem encodePoint_other {c : Nat} (scalar : IsScalar c) (high : ¬ c < 0x80) {b : UInt8}
    (mem : b ∈ encodePoint c) : 0x80 ≤ b.toNat := by
  unfold IsScalar at scalar
  unfold encodePoint at mem
  rw [if_neg high] at mem
  split_ifs at mem
  all_goals
    simp only [List.mem_cons,List.not_mem_nil,or_false] at mem
    rcases mem with rfl | mem
    · rw [toNat_ofNat (by omega)]
      omega
  · rw [mem,toNat_ofNat (by omega)]
    omega
  · rcases mem with rfl | rfl
    · rw [toNat_ofNat (by omega)]
      omega
    · rw [toNat_ofNat (by omega)]
      omega
  · rcases mem with rfl | rfl | rfl
    · rw [toNat_ofNat (by omega)]
      omega
    · rw [toNat_ofNat (by omega)]
      omega
    · rw [toNat_ofNat (by omega)]
      omega

theorem mem_of_mem_latin {s : List Char} {d : Char} (ascii : d.toNat < 0x80) (mem : d.toNat ∈ latin (bytesOf s)) :
    d ∈ s := by
  obtain ⟨b,mem,same⟩ := List.mem_map.mp mem
  obtain ⟨c,listed,mem⟩ := List.mem_flatMap.mp mem
  by_cases low : c.toNat < 0x80
  · rw [encodePoint_low low,List.mem_singleton] at mem
    rw [mem,toNat_ofNat (by omega)] at same
    exact Char.toNat_inj.mp same ▸ listed
  · have least := encodePoint_other (isScalar_toNat c) low mem
    omega

def Plain (s : List Char) : Prop := ∀ c ∈ s,c ≠ '"' ∧ c ≠ '\r' ∧ c ≠ '\n'

instance (s : List Char) : Decidable (Plain s) := List.decidableBAll _ s

theorem plain_escape (s : List Char) : Plain (escape s) := by
  intro d mem
  obtain ⟨c,-,mem⟩ := List.mem_flatMap.mp mem
  unfold escapeChar at mem
  split_ifs at mem with lf cr quote
  · exact (by decide : Plain "%0A".toList) d mem
  · exact (by decide : Plain "%0D".toList) d mem
  · exact (by decide : Plain "%22".toList) d mem
  · rw [List.mem_singleton.mp mem]
    exact ⟨quote,cr,lf⟩

theorem clean_latin {s : List Char} (plain : Plain s) :
    34 ∉ latin (bytesOf s) ∧ ∀ c ∈ latin (bytesOf s),inLine c = true := by
  constructor
  · intro mem
    exact (plain '"' (mem_of_mem_latin (d := '"') (by decide) mem)).1 rfl
  · intro c mem
    by_contra out
    have newline : c = 13 ∨ c = 10 := by
      simp only [inLine,ne_eq,decide_not,Bool.and_eq_true,Bool.not_eq_true',decide_eq_false_iff_not] at out
      omega
    rcases newline with rfl | rfl
    · exact (plain '\r' (mem_of_mem_latin (d := '\r') (by decide) mem)).2.1 rfl
    · exact (plain '\n' (mem_of_mem_latin (d := '\n') (by decide) mem)).2.2 rfl

namespace FileType

variable (type : FileType)

theorem printable : ∀ u ∈ unitsOf type.text,32 ≤ u ∧ u ≤ 126 ∧ toLowerCase u = u := by
  have normal := type.normal
  unfold blobType at normal
  split_ifs at normal with printable
  · intro u mem
    exact ⟨(printable u mem).1,(printable u mem).2,List.map_inj_left.mp (normal.trans (List.map_id _).symm) u mem⟩
  · rw [← normal] at printable
    exact absurd (fun c mem => absurd mem List.not_mem_nil) printable

theorem ascii : ∀ c ∈ type.text,c.toNat < 0x80 := by
  intro c mem
  have units : ∀ u ∈ fromCodePoint c.toNat,u ≤ 126 :=
    fun u here => (type.printable u (List.mem_flatMap.mpr ⟨c.toNat,List.mem_map_of_mem mem,here⟩)).2.1
  rcases fromCodePoint_cases c.toNat with same | high
  · rw [same] at units
    have least := units c.toNat (List.mem_singleton_self _)
    omega
  · obtain ⟨u,here⟩ := List.exists_mem_of_ne_nil _ (fromCodePoint_ne_nil c.toNat)
    have least := high u here
    have most := units u here
    omega

theorem latin_text : latin (bytesOf type.text) = unitsOf type.text := latin_bytesOf type.ascii

end FileType

/-! ### The body -/

theorem latin_typeOf (type : FileType) : latin (bytesOf (typeOf type.text)) = unitsOf (typeOf type.text) ∧
    ∀ u ∈ unitsOf (typeOf type.text),32 ≤ u ∧ u ≤ 126 ∧ toLowerCase u = u := by
  unfold typeOf
  split_ifs
  · exact ⟨by decide,by decide⟩
  · exact ⟨type.latin_text,type.printable⟩

theorem sectionEntry_sectionOf (e : FormEntry) : sectionEntry e.sectionOf = some e.decoded := by
  cases e with
  | text name value =>
    obtain ⟨clean,line⟩ := clean_latin (plain_escape name)
    rw [FormEntry.sectionOf,sectionEntry_text clean line,decoded_latin,decoded_latin]
    rfl
  | file name fileName type bytes =>
    obtain ⟨nameClean,nameLine⟩ := clean_latin (plain_escape name)
    obtain ⟨fileClean,fileLine⟩ := clean_latin (plain_escape fileName)
    have typeLine : ∀ c ∈ latin (bytesOf (typeOf type.text)),inLine c = true := by
      intro c mem
      rw [(latin_typeOf type).1] at mem
      obtain ⟨least,-,-⟩ := (latin_typeOf type).2 c mem
      unfold inLine
      simp only [ne_eq,decide_not,Bool.and_eq_true,Bool.not_eq_true',decide_eq_false_iff_not]
      omega
    rw [FormEntry.sectionOf,sectionEntry_file nameClean fileClean nameLine fileLine typeLine,decoded_latin,
      charCodes_latin]
    have fixed : toUSV (utf8Decode (charCodes (lit "; filename="))) = lit "; filename=" := by decide
    rw [apply_ite (fun u => toUSV (utf8Decode (charCodes u))),fixed,decoded_latin]
    rfl

def bodyOf (word : Units) : List FormEntry → Units
  | [] => lit "--\r\n"
  | e :: rest => e.sectionOf ++ word ++ bodyOf word rest

theorem latin_multipartEncode (random : Bytes) (entries : List FormEntry) :
    latin (multipartEncode (unitsOf (boundaryOf random)) (entries.map FormEntry.source)) =
      latin (bytesOf (delimiter random)) ++ bodyOf (latin (bytesOf (delimiter random))) entries := by
  rw [multipartEncode_eq]
  induction entries with
  | nil =>
    rw [List.map_nil,List.flatMap_nil,List.nil_append,bytesOf_append,latin_append]
    rfl
  | cons e rest ih =>
    rw [List.map_cons,List.flatMap_cons,List.append_assoc,latin_append,ih,latin_part,bodyOf,delimiter]
    simp only [List.append_assoc]

theorem sectionEntries_append (entries : List FormEntry) (last : Units) (ends : lit "--" <+: last) :
    sectionEntries (entries.map FormEntry.sectionOf ++ [last]) = entries.map FormEntry.decoded := by
  induction entries with
  | nil => exact if_pos ends
  | cons e rest ih =>
    have other : ¬ lit "--" <+: e.sectionOf := by
      intro begins
      cases e with
      | text name value => exact absurd (List.cons_prefix_cons.mp begins).1 (by decide)
      | file name fileName type bytes => exact absurd (List.cons_prefix_cons.mp begins).1 (by decide)
    rw [List.map_cons,List.cons_append,sectionEntries,if_neg other,sectionEntry_sectionOf,ih,List.map_cons]
    rfl

/-! ### The boundary -/

def mild (c : Char) : Bool := c.toNat < 0x80 && !([10,13,32,34,37,59].contains c.toNat) && !(isSpace c.toNat)

theorem mild_boundary (random : Bytes) : ∀ c ∈ boundaryOf random,mild c = true := by
  have letters : ∀ c ∈ alphabet,mild c = true := List.all_eq_true.mp (by decide)
  have start : ∀ c ∈ "----WebKitFormBoundary".toList,mild c = true := List.all_eq_true.mp (by decide)
  intro c mem
  rcases List.mem_append.mp mem with mem | mem
  · exact start c mem
  · obtain ⟨b,-,rfl⟩ := List.mem_map.mp (List.mem_of_mem_take mem)
    have inside : b.toNat % 62 < alphabet.length := Nat.mod_lt _ (by decide)
    rw [List.getD_eq_getElem _ _ inside]
    exact letters _ (List.getElem_mem inside)

theorem mild_delimiter (random : Bytes) : ∀ c ∈ delimiter random,mild c = true := by
  have start : ∀ c ∈ "--".toList,mild c = true := List.all_eq_true.mp (by decide)
  intro c mem
  rcases List.mem_append.mp mem with mem | mem
  · exact start c mem
  · exact mild_boundary random c mem

theorem ascii_of_mild {c : Char} (gentle : mild c = true) : c.toNat < 0x80 := by
  unfold mild at gentle
  rw [Bool.and_eq_true,Bool.and_eq_true] at gentle
  exact of_decide_eq_true gentle.1.1

theorem mem_unitsOf {s : List Char} (gentle : ∀ c ∈ s,mild c = true) {u : Nat} (mem : u ∈ unitsOf s) :
    ∃ c,mild c = true ∧ c.toNat = u := by
  obtain ⟨point,listed,here⟩ := List.mem_flatMap.mp mem
  obtain ⟨c,inside,rfl⟩ := List.mem_map.mp listed
  rw [units_low (ascii_of_mild (gentle c inside))] at here
  exact ⟨c,gentle c inside,(List.mem_singleton.mp here).symm⟩

def word (random : Bytes) : Units := lit "--" ++ unitsOf (boundaryOf random)

theorem boundary_length (random : Bytes) :
    (unitsOf "----WebKitFormBoundary".toList).length ≤ (unitsOf (boundaryOf random)).length := by
  have whole (letters : List Char) : (unitsOf "----WebKitFormBoundary".toList).length ≤
      (unitsOf ("----WebKitFormBoundary".toList ++ letters)).length :=
    (unitsOf_append _ letters ▸ List.prefix_append _ _ : unitsOf "----WebKitFormBoundary".toList <+:
      unitsOf ("----WebKitFormBoundary".toList ++ letters)).length_le
  exact whole _

theorem word_length (random : Bytes) : 4 < (word random).length :=
  calc
    4 < (unitsOf "----WebKitFormBoundary".toList).length := by decide
    _ ≤ (unitsOf (boundaryOf random)).length := boundary_length random
    _ ≤ (lit "--").length + (unitsOf (boundaryOf random)).length := Nat.le_add_left _ _
    _ = (word random).length := List.length_append.symm

theorem word_ne_nil (random : Bytes) : word random ≠ [] :=
  List.ne_nil_of_length_pos (Nat.zero_lt_of_lt (word_length random))

theorem latin_delimiter (random : Bytes) : latin (bytesOf (delimiter random)) = word random := by
  rw [latin_bytesOf fun c mem => ascii_of_mild (mild_delimiter random c mem),delimiter,unitsOf_append]
  rfl

theorem mild_word {random : Bytes} {u : Nat} (odd : u ∈ [10,13,32,34,37,59]) : u ∉ word random := by
  intro mem
  have whole : word random = unitsOf (delimiter random) := (unitsOf_append _ _).symm
  rw [whole] at mem
  obtain ⟨c,gentle,rfl⟩ := mem_unitsOf (mild_delimiter random) mem
  unfold mild at gentle
  rw [Bool.and_eq_true,Bool.and_eq_true,Bool.not_eq_true',List.contains_eq_mem] at gentle
  exact of_decide_eq_false gentle.1.2 odd

theorem readBoundary_boundary (random : Bytes) :
    readBoundary (unitsOf (boundaryOf random)) = some (unitsOf (boundaryOf random)) := by
  have bare : ∀ u ∈ unitsOf (boundaryOf random),(!(u == 59 || isSpace u)) = true := by
    intro u mem
    obtain ⟨c,gentle,rfl⟩ := mem_unitsOf (mild_boundary random) mem
    unfold mild at gentle
    simp only [Bool.and_eq_true,Bool.not_eq_true',List.contains_eq_mem,decide_eq_false_iff_not,List.mem_cons,
      not_or] at gentle
    simp [gentle]
  have quote : 34 ∉ unitsOf (boundaryOf random) := by
    intro mem
    exact mild_word (by decide) (List.mem_append_right (lit "--") mem)
  have inhabited : unitsOf (boundaryOf random) ≠ [] := by
    intro nothing
    have none := unitsOf_eq_nil.mp nothing
    exact absurd (List.append_eq_nil_iff.mp none).1 (by decide)
  unfold readBoundary
  dsimp only
  rw [List.takeWhile_eq_self_iff.mpr bare,if_neg,if_neg inhabited]
  rintro ⟨start,-⟩
  exact quote (List.mem_of_mem_head? start)

theorem search_boundary (random : Bytes) :
    search canonical (lit "boundary=") readBoundary (multipartType (unitsOf (boundaryOf random))) =
      some (unitsOf (boundaryOf random)) := by
  have key : lit "boundary=" = lit "boundary" ++ [61] := rfl
  have start : lit "multipart/form-data; boundary=" = lit "multipart/form-data; boundary" ++ [61] := rfl
  rw [key,multipartType,start,List.append_assoc,List.singleton_append,
    search_last canonical_equals (by decide) (by decide),if_pos (by decide),readBoundary_boundary,Option.some_or]

/-! ### The boundary in a section -/

theorem latin_cons (c : Char) (s : List Char) :
    latin (bytesOf (c :: s)) = latin (encodePoint c.toNat) ++ latin (bytesOf s) := latin_append _ _

theorem latin_flatMap (f : Char → List Char) (s : List Char) :
    latin (bytesOf (s.flatMap f)) = s.flatMap fun c => latin (bytesOf (f c)) := by
  induction s with
  | nil => rfl
  | cons c s ih => rw [List.flatMap_cons,bytesOf_append,latin_append,ih,List.flatMap_cons]

theorem escape_rewritten (random : Bytes) (s : List Char) :
    Rewritten (word random) (latin (bytesOf s)) (latin (bytesOf (escape s))) := by
  have percent : 37 ∉ word random := mild_word (by decide)
  have single : s = s.flatMap fun c => [c] := (List.flatMap_singleton' s).symm
  rw [escape,latin_flatMap]
  nth_rewrite 1 [single]
  rw [latin_flatMap]
  apply Rewritten.flatMap
  intro c _
  unfold escapeChar
  have apart : ∀ digit ∈ [48,65,68,50],∀ start ∈ (word random).head?,start ∉ [37,48,digit] ∧ start ∉ [37,50,digit] := by
    intro digit mem start first
    cases first
    revert digit
    decide
  split_ifs
  · rw [show latin (bytesOf "%0A".toList) = [37,48,65] from by decide]
    exact .replaced _ percent fun start first => (apart 65 (by decide) start first).1
  · rw [show latin (bytesOf "%0D".toList) = [37,48,68] from by decide]
    exact .replaced _ percent fun start first => (apart 68 (by decide) start first).1
  · rw [show latin (bytesOf "%22".toList) = [37,50,50] from by decide]
    exact .replaced _ percent fun start first => (apart 50 (by decide) start first).2
  · exact .refl _

theorem crlf_rewritten (random : Bytes) (s : List Char) :
    Rewritten (word random) (latin (bytesOf s)) (latin (bytesOf (crlf s))) := by
  have cr : 13 ∉ word random := mild_word (by decide)
  have apart : ∀ start ∈ (word random).head?,start ∉ [13,10] := by
    intro start first
    cases first
    decide
  induction s using newline_induction with
  | nil => exact .nil
  | pair rest ih =>
    rw [crlf_pair,latin_cons,latin_cons,latin_cons,latin_cons]
    exact (Rewritten.refl _).append ((Rewritten.refl _).append ih)
  | cr rest alone ih =>
    rw [crlf_cr alone,latin_cons,latin_cons,latin_cons,← List.append_assoc]
    exact (Rewritten.replaced _ cr apart).append ih
  | lf rest ih =>
    rw [crlf_lf,latin_cons,latin_cons,latin_cons,← List.append_assoc]
    exact (Rewritten.replaced _ cr apart).append ih
  | other c rest isCr isLf ih =>
    rw [crlf_other isCr isLf,latin_cons,latin_cons]
    exact (Rewritten.refl _).append ih

def Absent (random : Bytes) (text : Units) : Prop := ¬ word random <:+: text

section
variable {random : Bytes}

theorem absent_latin {bytes : Bytes} (absent : ¬ bytesOf (delimiter random) <:+: bytes) :
    Absent random (latin bytes) := by
  intro inside
  rw [← latin_delimiter] at inside
  have back := List.IsInfix.map UInt8.ofNat inside
  rw [show (latin (bytesOf (delimiter random))).map UInt8.ofNat = _ from charCodes_latin _,
    show (latin bytes).map UInt8.ofNat = _ from charCodes_latin _] at back
  exact absent back

theorem absent_escape {s : List Char} (absent : ¬ bytesOf (delimiter random) <:+: bytesOf s) :
    Absent random (latin (bytesOf (escape s))) := by
  intro inside
  exact absent_latin absent ((escape_rewritten random s).infix_old inside)

theorem absent_crlf {s : List Char} (absent : ¬ bytesOf (delimiter random) <:+: bytesOf s) :
    Absent random (latin (bytesOf (crlf s))) := by
  intro inside
  exact absent_latin absent ((crlf_rewritten random s).infix_old inside)

theorem absent_literal {text : Units} (plain : ¬ [45,45] <:+: text) : Absent random text := by
  intro inside
  exact plain (List.IsInfix.trans (List.prefix_append [45,45] (unitsOf (boundaryOf random))).isInfix inside)

theorem absent_join {x : Nat} (odd : x ∈ [10,13,32,34,37,59]) {first second : Units}
    (here : Absent random first) (there : Absent random second) : Absent random (first ++ x :: second) := by
  intro inside
  rcases infix_of_missing (mild_word odd) inside with before | beyond
  · exact here before
  · exact there beyond

theorem absent_cons {x : Nat} (odd : x ∈ [10,13,32,34,37,59]) {text : Units} (absent : Absent random text) :
    Absent random (x :: text) :=
  absent_join odd (absent_literal (by decide) : Absent random []) absent

theorem absent_section {headers body : Units} (top : Absent random headers) (bottom : Absent random body) :
    Absent random (lit "\r\n" ++ (headers ++ lit "\r\n\r\n" ++ body) ++ [13]) := by
  have inner : Absent random (headers ++ 13 :: 10 :: 13 :: 10 :: body) :=
    absent_join (by decide) top (absent_cons (by decide) (absent_cons (by decide) (absent_cons (by decide) bottom)))
  have none : Absent random [] := absent_literal (by decide)
  have framed : Absent random (13 :: 10 :: (headers ++ 13 :: 10 :: 13 :: 10 :: body) ++ 13 :: []) :=
    absent_join (by decide) (absent_cons (by decide) (absent_cons (by decide) inner)) none
  rw [show lit "\r\n\r\n" = [13,10,13,10] from rfl,show lit "\r\n" = [13,10] from rfl]
  simpa using framed

theorem absent_text {name : Units} (absent : Absent random name) : Absent random (textHeaders name) :=
  absent_join (by decide) (absent_literal (by decide))
    (absent_join (by decide) absent (absent_literal (by decide)))

theorem absent_file {name file type : Units} (inName : Absent random name) (inFile : Absent random file)
    (inType : Absent random type) : Absent random (fileHeaders name file type) := by
  have typed : Absent random (lit "Content-Type: " ++ type) := by
    rw [show lit "Content-Type: " = lit "Content-Type:" ++ [32] from rfl,List.append_assoc]
    exact absent_join (by decide) (absent_literal (by decide)) inType
  have fileOn : Absent random (file ++ 34 :: 13 :: 10 :: (lit "Content-Type: " ++ type)) :=
    absent_join (by decide) inFile (absent_cons (by decide) (absent_cons (by decide) typed))
  exact absent_join (by decide) (absent_literal (by decide)) (absent_join (by decide) inName
    (absent_join (by decide) (absent_literal (by decide)) fileOn))

theorem absent_typeOf {type : FileType} (absent : ¬ bytesOf (delimiter random) <:+: bytesOf type.text) :
    Absent random (latin (bytesOf (typeOf type.text))) := by
  unfold typeOf
  split_ifs
  · exact absent_literal (by decide)
  · exact absent_latin absent

theorem sectionOf_absent {e : FormEntry} (clean : ∀ piece ∈ e.pieces,¬ bytesOf (delimiter random) <:+: piece) :
    ∃ front,e.sectionOf = front ++ [10] ∧ Absent random front := by
  have ends (headers body : Units) : section_ headers body =
      lit "\r\n" ++ (headers ++ lit "\r\n\r\n" ++ body) ++ [13] ++ [10] := (List.append_assoc _ [13] [10]).symm
  cases e with
  | text name value =>
    have inName := absent_escape (clean _ List.mem_cons_self)
    have inValue := absent_crlf (clean _ (List.mem_cons_of_mem _ List.mem_cons_self))
    exact ⟨_,ends _ _,absent_section (absent_text inName) inValue⟩
  | file name fileName type bytes =>
    simp only [FormEntry.pieces,List.forall_mem_cons] at clean
    obtain ⟨inName,inFile,inType,inBytes,-⟩ := clean
    have top := absent_file (absent_escape inName) (absent_escape inFile) (absent_typeOf inType)
    exact ⟨_,ends _ _,absent_section top (absent_latin inBytes)⟩

theorem splitFrom_bodyOf {entries : List FormEntry}
    (clean : ∀ e ∈ entries,∀ piece ∈ e.pieces,¬ bytesOf (delimiter random) <:+: piece) :
    splitFrom (word random) 0 (bodyOf (word random) entries) =
      entries.map FormEntry.sectionOf ++ [lit "--\r\n"] := by
  induction entries with
  | nil =>
    apply splitFrom_absent
    intro inside
    exact absurd (inside.length_le.trans_eq (by decide : (lit "--\r\n").length = 4)) (word_length random).not_ge
  | cons e rest ih =>
    obtain ⟨front,ends,absent⟩ := sectionOf_absent (clean e List.mem_cons_self)
    rw [bodyOf,List.append_assoc,ends,List.append_assoc,List.singleton_append,
      splitFrom_append (word_ne_nil random) (mild_word (by decide)) absent,
      ih fun other mem => clean other (List.mem_cons_of_mem e mem),List.map_cons,ends]
    rfl

theorem multipartDecode_multipartEncode {entries : List FormEntry}
    (clean : ∀ e ∈ entries,∀ piece ∈ e.pieces,¬ bytesOf (delimiter random) <:+: piece) :
    multipartDecode (multipartEncode (unitsOf (boundaryOf random)) (entries.map FormEntry.source))
      (multipartType (unitsOf (boundaryOf random))) = some (entries.map FormEntry.decoded) := by
  have ends : lit "--" <+: lit "--\r\n" := by decide
  unfold multipartDecode
  rw [search_boundary,Option.map_some,latin_multipartEncode,latin_delimiter]
  change some (sectionEntries (splitFrom (word random) 0 _).tail) = _
  rw [splitFrom_here (word_ne_nil random),splitFrom_bodyOf clean,List.tail_cons,sectionEntries_append _ _ ends]

end

/-! ### What survives -/

theorem escape_of_plain {s : List Char} (plain : Plain s) : escape s = s := by
  have each : ∀ c ∈ s,escapeChar c = [c] := by
    intro c mem
    obtain ⟨quote,cr,lf⟩ := plain c mem
    rw [escapeChar,if_neg lf,if_neg cr,if_neg quote]
  rw [escape,List.flatMap_congr each,List.flatMap_singleton']

theorem escapeChar_length (c : Char) : 1 ≤ (escapeChar c).length ∧
    ((escapeChar c).length < 3 → c ≠ '"' ∧ c ≠ '\r' ∧ c ≠ '\n') := by
  unfold escapeChar
  split_ifs with lf cr quote
  · exact ⟨by decide,fun short => absurd short (by decide)⟩
  · exact ⟨by decide,fun short => absurd short (by decide)⟩
  · exact ⟨by decide,fun short => absurd short (by decide)⟩
  · exact ⟨le_rfl,fun _ => ⟨quote,cr,lf⟩⟩

theorem escape_length (s : List Char) :
    s.length ≤ (escape s).length ∧ (¬ Plain s → s.length + 2 ≤ (escape s).length) := by
  induction s with
  | nil => exact ⟨le_rfl,fun odd => absurd (fun c mem => absurd mem List.not_mem_nil) odd⟩
  | cons c s ih =>
    obtain ⟨some_,here⟩ := escapeChar_length c
    obtain ⟨least,later⟩ := ih
    have whole : (escape (c :: s)).length = (escapeChar c).length + (escape s).length := List.length_append
    rw [whole,List.length_cons]
    refine ⟨by omega,fun odd => ?_⟩
    by_cases short : (escapeChar c).length < 3
    · have rest : ¬ Plain s := fun plain => odd (List.forall_mem_cons.mpr ⟨here short,plain⟩)
      have more := later rest
      omega
    · omega

def LongMarked (s : List Char) : Prop := 256 < (bytesOf s).length ∧ s.head? = some mark

def Kept (s : List Char) : Prop := Plain s ∧ ¬ LongMarked s

theorem kept_iff (s : List Char) : unitsOf (returned (escape s)) = unitsOf s ↔ Kept s := by
  by_cases plain : Plain s
  · rw [escape_of_plain plain,returned_iff,Kept,and_iff_right plain]
    rfl
  · refine iff_of_false (fun same => ?_) fun kept => plain kept.1
    have length := congrArg List.length (unitsOf_injective same)
    have more := (escape_length s).2 plain
    unfold returned at length
    split_ifs at length
    · rw [List.length_tail] at length
      omega
    · omega

theorem space_of_printable {c : Nat} (least : 32 ≤ c) (most : c ≤ 126) (space : isSpace c = true) : c = 32 := by
  unfold isSpace at space
  simp only [Bool.or_eq_true,Bool.and_eq_true,decide_eq_true_eq,beq_iff_eq] at space
  omega

theorem blobType_length_le (t : Units) : (blobType t).length ≤ t.length := by
  unfold blobType
  split_ifs
  · exact (List.length_map _).le
  · exact Nat.zero_le _

theorem readType_spaces {u : Units} (printable : ∀ x ∈ u,32 ≤ x ∧ x ≤ 126) (spaces : u.dropWhile isSpace = []) :
    readType (32 :: u) = some [32] := by
  have inhabited : (32 :: u).filter inLine ≠ [] :=
    List.ne_nil_of_mem (List.mem_filter.mpr ⟨List.mem_cons_self,rfl⟩)
  obtain ⟨x,last⟩ : ∃ x,((32 :: u).filter inLine).getLast? = some x := ⟨_,List.getLast?_eq_some_getLast inhabited⟩
  have fixed : x = 32 := by
    rcases List.mem_cons.mp (List.mem_filter.mp (List.mem_of_getLast? last)).1 with same | mem
    · exact same
    · have space := List.dropWhile_eq_nil_iff.mp spaces x mem
      exact space_of_printable (printable x mem).1 (printable x mem).2 space
  rw [readType,List.dropWhile_cons_of_pos rfl,if_pos spaces,last,fixed]
  rfl

theorem readType_text {u : Units} (printable : ∀ x ∈ u,32 ≤ x ∧ x ≤ 126) (some_ : u.dropWhile isSpace ≠ []) :
    readType (32 :: u) = some (u.dropWhile isSpace) := by
  have line : (u.dropWhile isSpace).takeWhile inLine = u.dropWhile isSpace := by
    apply List.takeWhile_eq_self_iff.mpr
    intro x mem
    obtain ⟨least,-⟩ := printable x ((List.dropWhile_suffix isSpace).subset mem)
    simp only [inLine,ne_eq,decide_not,Bool.and_eq_true,Bool.not_eq_true',decide_eq_false_iff_not]
    omega
  rw [readType,List.dropWhile_cons_of_pos rfl,if_neg some_,line]

theorem readType_typeOf (type : FileType) :
    blobType ((readType (32 :: unitsOf (typeOf type.text))).getD []) = unitsOf type.text ↔
      type.text = [' '] ∨ (type.text ≠ [] ∧ type.text.head? ≠ some ' ') := by
  have printable : ∀ x ∈ unitsOf type.text,32 ≤ x ∧ x ≤ 126 :=
    fun x mem => ⟨(type.printable x mem).1,(type.printable x mem).2.1⟩
  have normal := type.normal
  have ascii := type.ascii
  cases whole : type.text with
  | nil =>
    have other : blobType ((readType (32 :: unitsOf (typeOf []))).getD []) ≠ unitsOf [] := by decide
    exact iff_of_false other (by simp)
  | cons c s =>
    rw [whole] at printable normal ascii
    have typed : typeOf (c :: s) = c :: s := if_neg (List.cons_ne_nil c s)
    have units : unitsOf (c :: s) = c.toNat :: unitsOf s := by
      rw [unitsOf_cons,units_low (ascii c List.mem_cons_self),List.singleton_append]
    rw [typed]
    by_cases space : c = ' '
    · subst space
      have dropped : (unitsOf (' ' :: s)).dropWhile isSpace = (unitsOf s).dropWhile isSpace := by
        rw [units]
        exact List.dropWhile_cons_of_pos rfl
      have alone : ' ' :: s = [' '] ∨ (' ' :: s ≠ [] ∧ (' ' :: s).head? ≠ some ' ') ↔ unitsOf s = [] := by
        rw [unitsOf_eq_nil,List.cons.injEq,List.head?_cons]
        simp
      rw [alone]
      by_cases spaces : (unitsOf s).dropWhile isSpace = []
      · rw [readType_spaces printable (dropped.trans spaces),Option.getD_some,
          show blobType [32] = [32] from by decide,units]
        constructor
        · intro same
          exact (List.cons.inj same).2.symm
        · intro nothing
          rw [nothing]
          rfl
      · rw [readType_text printable (dropped ▸ spaces),Option.getD_some,dropped]
        refine iff_of_false (fun same => ?_) fun nothing => spaces (by rw [nothing]; rfl)
        have le := blobType_length_le ((unitsOf s).dropWhile isSpace)
        rw [same,units,List.length_cons] at le
        have shorter := (List.dropWhile_suffix isSpace (l := unitsOf s)).length_le
        omega
    · have code : c.toNat ≠ 32 := fun same => space (Char.toNat_inj.mp same)
      obtain ⟨least,most⟩ := printable c.toNat (units ▸ List.mem_cons_self)
      have kept : (unitsOf (c :: s)).dropWhile isSpace = unitsOf (c :: s) := by
        rw [units]
        exact List.dropWhile_cons_of_neg fun space => code (space_of_printable least most space)
      have some_ : unitsOf (c :: s) ≠ [] := units ▸ List.cons_ne_nil _ _
      rw [readType_text printable (kept.trans_ne some_),kept,Option.getD_some,normal]
      exact iff_of_true rfl (.inr ⟨List.cons_ne_nil c s,fun head => space (Option.some.inj head)⟩)

def KeepsType (name fileName : List Char) (type : FileType) : Prop :=
  match after (lit "content-type:") (latin (bytesOf name)) with
  | some tail => blobType ((tail ++ between ++ latin (bytesOf fileName) ++ [34]).dropWhile isSpace) = unitsOf type.text
  | none =>
    match after (lit "content-type:") (latin (bytesOf fileName)) with
    | some tail => blobType ((tail ++ [34]).dropWhile isSpace) = unitsOf type.text
    | none => type.text = [' '] ∨ (type.text ≠ [] ∧ type.text.head? ≠ some ' ')

/-- Where the name ends in `filename=`, what follows is read as the file name. -/
def KeepsFile (name fileName : List Char) : Prop :=
  if (lit "filename=").map canonical <:+ (latin (bytesOf name)).map canonical then fileName = "; filename=".toList
  else Kept fileName

def FormEntry.Survives : FormEntry → Prop
  | .text name value => Kept name ∧ ¬ LongMarked (crlf value)
  | .file name fileName type _ => Kept name ∧ KeepsFile name fileName ∧ KeepsType name fileName type

theorem typeFound_iff (name fileName : List Char) (type : FileType) :
    blobType (typeFound (latin (bytesOf name)) (latin (bytesOf fileName)) (latin (bytesOf (typeOf type.text)))) =
      unitsOf type.text ↔ KeepsType name fileName type := by
  unfold typeFound KeepsType
  rw [(latin_typeOf type).1]
  cases after (lit "content-type:") (latin (bytesOf name)) with
  | some tail => exact Iff.rfl
  | none =>
    cases after (lit "content-type:") (latin (bytesOf fileName)) with
    | some tail => exact Iff.rfl
    | none => exact readType_typeOf type

theorem keepsFile_iff (name fileName : List Char) :
    (if (lit "filename=").map canonical <:+ (latin (bytesOf name)).map canonical then lit "; filename="
      else unitsOf (returned (escape fileName))) = unitsOf fileName ↔ KeepsFile name fileName := by
  unfold KeepsFile
  split_ifs
  · constructor
    · intro same
      exact (unitsOf_injective same).symm
    · rintro rfl
      rfl
  · exact kept_iff fileName

theorem plain_of_keepsFile {name fileName : List Char} (keeps : KeepsFile name fileName) : Plain fileName := by
  unfold KeepsFile at keeps
  split_ifs at keeps
  · rw [keeps]
    decide
  · exact keeps.1

theorem decoded_eq_iff (e : FormEntry) : e.decoded = e.normalized ↔ e.Survives := by
  cases e with
  | text name value =>
    simp only [FormEntry.decoded,FormEntry.normalized,FormEntry.Survives,Prod.mk.injEq,Value.string.injEq,kept_iff,
      returned_iff]
    rfl
  | file name fileName type bytes =>
    simp only [FormEntry.decoded,FormEntry.normalized,FormEntry.source,FormEntry.Survives,Prod.mk.injEq,
      Value.blob.injEq,Option.some.injEq,kept_iff,and_true]
    apply and_congr_right
    intro kept
    rw [escape_of_plain kept.1,keepsFile_iff]
    apply and_congr_right
    intro keeps
    rw [escape_of_plain (plain_of_keepsFile keeps)]
    exact typeFound_iff name fileName type

/-- A list comes back with its newlines normalised if each of its entries survives. -/
theorem multipartDecode_multipartEncode_iff (random : Bytes) (entries : List FormEntry)
    (clean : ∀ e ∈ entries,∀ piece ∈ e.pieces,¬ bytesOf (delimiter random) <:+: piece) :
    multipartDecode (multipartEncode (unitsOf (boundaryOf random)) (entries.map FormEntry.source))
      (multipartType (unitsOf (boundaryOf random))) = some (entries.map FormEntry.normalized) ↔
      ∀ e ∈ entries,e.Survives := by
  rw [multipartDecode_multipartEncode clean,Option.some.injEq,List.map_inj_left]
  apply forall₂_congr
  intro e _
  exact decoded_eq_iff e

theorem absent_short (random : Bytes) {piece : Bytes} (short : piece.length ≤ 4) :
    ¬ bytesOf (delimiter random) <:+: piece := by
  intro inside
  have same : (word random).length = (bytesOf (delimiter random)).length := by
    rw [← latin_delimiter]
    exact List.length_map _
  exact absurd (inside.length_le.trans short) (same ▸ word_length random).not_ge

theorem line_feed_comes_back : multipartDecode
    (multipartEncode (unitsOf (boundaryOf (List.replicate 12 0))) (([.text ['a'] ['\n']] : List FormEntry).map FormEntry.source))
      (multipartType (unitsOf (boundaryOf (List.replicate 12 0)))) = some [(lit "a",.string (lit "\r\n"))] := by
  refine (multipartDecode_multipartEncode_iff (List.replicate 12 0) [.text ['a'] ['\n']] ?_).mpr ?_
  · simp only [List.forall_mem_singleton]
    intro piece mem
    apply absent_short
    rcases List.mem_cons.mp mem with rfl | mem
    · decide
    · rw [List.mem_singleton.mp mem]
      decide
  · rw [List.forall_mem_singleton]
    exact ⟨⟨by decide,fun marked => absurd marked.1 (by decide)⟩,fun marked => absurd marked.1 (by decide)⟩

/-- A quotation mark in a name comes back as its escape. -/
theorem quoted_name : ¬ ∀ (random : Bytes) (entries : List FormEntry),
    (∀ e ∈ entries,∀ piece ∈ e.pieces,¬ bytesOf (delimiter random) <:+: piece) →
    multipartDecode (multipartEncode (unitsOf (boundaryOf random)) (entries.map FormEntry.source))
      (multipartType (unitsOf (boundaryOf random))) = some (entries.map FormEntry.normalized) := by
  intro all
  have clean : ∀ e ∈ [FormEntry.text ['"'] []],∀ piece ∈ e.pieces,
      ¬ bytesOf (delimiter (List.replicate 12 0)) <:+: piece := by
    simp only [List.forall_mem_singleton]
    intro piece mem
    apply absent_short
    rcases List.mem_cons.mp mem with rfl | mem
    · decide
    · rw [List.mem_singleton.mp mem]
      decide
  have same := all _ _ clean
  rw [multipartDecode_multipartEncode clean,Option.some.injEq,List.map_inj_left] at same
  have kept := (decoded_eq_iff _).mp (same _ List.mem_cons_self)
  exact absurd kept.1.1 (by decide)

end Sharko.Script.WebApi
