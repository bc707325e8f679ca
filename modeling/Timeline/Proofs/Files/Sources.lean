import Timeline.Proofs.Files.Load
import Timeline.Proofs.Json.LineEnds
import Timeline.Proofs.Text.Utf8

/-! # Sources of documents

A text is read alike from a file, from a stream of its bytes and from a stream of its characters,
whatever its line ends, as long as the limit does not lie between the number of its characters and
the number of its bytes. In between the file and the stream of bytes are too large, and the stream of
characters is read as if there were no limit.
-/

namespace Timeline

theorem Double.one_pos : 0 < one := by
  decide +kernel

theorem Number.lt_int_of_le {limit : Number} {m n : Nat} (hmn : m ≤ n)
    (h : limit.lt (.int m) = true) : limit.lt (.int n) = true := by
  have hunits : (m : Int) * Double.one ≤ n * Double.one :=
    Int.mul_le_mul_of_nonneg_right (Int.ofNat_le.mpr hmn) (Int.natCast_nonneg _)
  unfold lt at h ⊢
  cases hplace : limit.place? with
  | none => simp [hplace] at h
  | some p =>
    rw [hplace] at h
    cases p with
    | low => rfl
    | units u =>
      have hu : u < m * Double.one := of_decide_eq_true h
      exact decide_eq_true (Int.lt_of_lt_of_le hu hunits)
    | high => cases h

namespace Utf8

variable {cs : List Char}

theorem length_encodeChar_pos (c : Char) : 1 ≤ (encodeChar c).length := by
  obtain ⟨b, tail, hchar, -⟩ := decodeFirst_encodeChar c []
  rw [hchar]
  exact Nat.succ_le_succ (Nat.zero_le _)

theorem length_le_length_encode (cs : List Char) : cs.length ≤ (encode cs).length := by
  induction cs with
  | nil => exact Nat.le_refl 0
  | cons c cs ih =>
    have hpos := length_encodeChar_pos c
    rw [encode, List.flatMap_cons, List.length_append, List.length_cons]
    rw [encode] at ih
    omega

theorem length_encode_of_ascii (h : ∀ c ∈ cs, c.toNat < 0x80) :
    (encode cs).length = cs.length := by
  induction cs with
  | nil => rfl
  | cons c cs ih =>
    obtain ⟨hc, hcs⟩ := List.forall_mem_cons.mp h
    have hone : encodeChar c = [c.toNat.toUInt8] := if_pos hc
    have ih := ih hcs
    rw [encode] at ih
    rw [encode, List.flatMap_cons, hone, List.length_append, ih, List.length_singleton,
      List.length_cons, Nat.add_comm]

end Utf8

namespace Upload

variable {w : Workspace} {limit : Number} {path : String} {cs : List Char} {u : Upload}

theorem isOver_of_le {m n : Nat} (hmn : m ≤ n) (h : isOver m limit = true) :
    isOver n limit = true := by
  rw [isOver, Bool.and_eq_true] at h ⊢
  exact ⟨h.1, Number.lt_int_of_le hmn h.2⟩

theorem isOver_int (size : Nat) (n : Int) : isOver size (.int n) = decide (n ≠ 0 ∧ n < size) := by
  have hone : (0 : Int) < Double.one := Int.natCast_pos.mpr Double.one_pos
  have hsame : Number.same (.int n) (.int 0) = decide (n = 0) := by
    simp only [Number.same, Number.place?]
    generalize (Double.one : Int) = one at hone
    rw [Bool.eq_iff_iff, beq_iff_eq, decide_eq_true_iff, Place.units.injEq, Int.zero_mul,
      Int.mul_eq_zero, or_iff_left (Int.ne_of_gt hone)]
  have hlt : Number.lt (.int n) (.int size) = decide (n < size) := by
    simp only [Number.lt, Number.place?, Place.lt]
    generalize (Double.one : Int) = one at hone
    exact decide_eq_decide.mpr (Int.mul_lt_mul_right hone)
  rw [isOver, hsame, hlt, Bool.decide_and, ← decide_not]

/-- Three ways to read a document give the same value, all of them fail to load it, or all of them
stop at an integer with too many digits. -/
inductive Agree : (x y z : Except Failure Value) → Prop
  | value {v : Value} : Agree (.ok v) (.ok v) (.ok v)
  | failed {f g h : LoadFailure} : Agree (.error (.load f)) (.error (.load g)) (.error (.load h))
  | tooManyDigits {n : Nat} : Agree (.error (.tooManyDigits n)) (.error (.tooManyDigits n))
    (.error (.tooManyDigits n))

def parse (u : Upload) (cs : List Char) : Except Failure Value :=
  match Json.read cs with
  | .ok v => .ok v
  | .error (.fault f) => .error (.load (.notJson u.label f))
  | .error (.tooManyDigits n) => .error (.tooManyDigits n)

theorem read_of_content (h : u.content w limit = .ok cs) : u.read w limit = u.parse cs := by
  rw [read, h, ok_bind]
  unfold parse
  rcases Json.read cs with (f | n) | v <;> rfl

theorem content_byteStream {name : Option String}
    (h : isOver (Utf8.encode cs).length limit = false) :
    (byteStream (Utf8.encode cs) name).content w limit = .ok cs := by
  simp [content, checkSize, h, decode, Utf8.decode_encode]

theorem content_textStream {name : Option String} (h : isOver cs.length limit = false) :
    (textStream cs name).content w limit = .ok cs := by
  simp [content, checkSize, h]

theorem read_byteStream_of_isOver {bytes : List UInt8} {name : Option String}
    (h : isOver bytes.length limit = true) : (byteStream bytes name).read w limit =
      .error (.load (.tooLarge "Upload" bytes.length (Value.ofNumber limit).plain)) := by
  simp [read, content, checkSize, h]

theorem read_textStream_of_isOver {name : Option String} (h : isOver cs.length limit = true) :
    (textStream cs name).read w limit =
      .error (.load (.tooLarge "Upload" cs.length (Value.ofNumber limit).plain)) := by
  simp [read, content, checkSize, h]

theorem agree_parse (u₁ u₂ u₃ : Upload) (cs : List Char) :
    Agree (u₁.parse (Text.unifyLineEnds cs)) (u₂.parse cs) (u₃.parse cs) := by
  have halike := Json.readWith_unifyLineEnds Json.digitLimit cs
  unfold parse Json.read
  generalize Json.readWith Json.digitLimit cs = x,
    Json.readWith Json.digitLimit (Text.unifyLineEnds cs) = y at halike
  cases halike with
  | value => exact .value
  | fault _ => exact .failed
  | tooManyDigits => exact .tooManyDigits

section Sources

variable (hnul : '\x00' ∉ path.toList) (hnode : w.node path = .ok (.file (Utf8.encode cs)))
  (name name' : Option String)

include hnul hnode

theorem refused_of_isOver (h : isOver (Utf8.encode cs).length limit = true) :
    (Upload.file path).read w limit = .error (.load (.tooLarge path (Utf8.encode cs).length
        (Value.ofNumber limit).plain)) ∧
      (byteStream (Utf8.encode cs) name).read w limit = .error (.load (.tooLarge "Upload"
        (Utf8.encode cs).length (Value.ofNumber limit).plain)) := by
  have hsize : w.size path = .ok (Utf8.encode cs).length := by rw [Workspace.size, hnode]
  exact ⟨read_of_hasFault (.tooLarge hnul hsize h), read_byteStream_of_isOver h⟩

theorem agree_of_not_isOver (h : isOver (Utf8.encode cs).length limit = false) :
    Agree ((Upload.file path).read w limit) ((byteStream (Utf8.encode cs) name).read w limit)
      ((textStream cs name').read w limit) := by
  have hchars : isOver cs.length limit = false := by
    apply Bool.eq_false_iff.mpr
    intro hchars
    cases h.symm.trans (isOver_of_le (Utf8.length_le_length_encode cs) hchars)
  have htext : w.HoldsText limit path cs :=
    ⟨Utf8.encode cs, ⟨hnul, hnode, h⟩, Utf8.decode_encode cs⟩
  rw [read_of_content (content_of_holdsText htext), read_of_content (content_byteStream h),
    read_of_content (content_textStream hchars)]
  exact agree_parse _ _ _ cs

/-- The sources agree exactly if the limit does not lie between the two sizes or the text holds no
document. -/
theorem agree_iff (limit : Number) :
    Agree ((Upload.file path).read w limit) ((byteStream (Utf8.encode cs) name).read w limit)
        ((textStream cs name').read w limit) ↔
      (isOver (Utf8.encode cs).length limit = true → isOver cs.length limit = true) ∨
        ∃ f, (textStream cs name').read w limit = .error (.load f) := by
  cases hover : isOver (Utf8.encode cs).length limit with
  | false =>
    exact iff_of_true (agree_of_not_isOver hnul hnode name name' hover) (.inl Bool.noConfusion)
  | true =>
    obtain ⟨hfile, hbytes⟩ := refused_of_isOver hnul hnode name hover
    rw [hfile, hbytes]
    constructor
    · rintro h
      generalize (textStream cs name').read w limit = text at h
      cases h
      exact .inr ⟨_, rfl⟩
    · rintro (hchars | ⟨f, htext⟩)
      · rw [read_textStream_of_isOver (hchars rfl)]
        exact .failed
      · rw [htext]
        exact .failed

/-- The text of a file is read alike from streams of its bytes and of its characters, exactly if the
limit does not lie between the two sizes or the text holds no document. A file and a stream of bytes
over the limit are refused; a stream of characters is read without regard to the number of its
bytes. -/
theorem read_sources (limit : Number) :
    let size := (Utf8.encode cs).length
    let file := (Upload.file path).read w limit
    let bytes := (byteStream (Utf8.encode cs) name).read w limit
    let text := (textStream cs name').read w limit
    (Agree file bytes text ↔
        (isOver size limit = true → isOver cs.length limit = true) ∨
          ∃ f, text = .error (.load f)) ∧
      ((∀ c ∈ cs, c.toNat < 0x80) → Agree file bytes text) ∧
      (isOver size limit = true →
        file = .error (.load (.tooLarge path size (Value.ofNumber limit).plain)) ∧
          bytes = .error (.load (.tooLarge "Upload" size (Value.ofNumber limit).plain))) ∧
      (isOver cs.length limit = false → text = (textStream cs name').read w (.int 0)) := by
  intro size file bytes text
  have hagree := agree_iff hnul hnode name name' limit
  refine ⟨hagree, ?_, refused_of_isOver hnul hnode name, ?_⟩
  · intro hascii
    apply hagree.mpr
    left
    rw [Utf8.length_encode_of_ascii hascii]
    exact id
  · intro hchars
    have hzero : isOver cs.length (.int 0) = false := by simp [isOver_int]
    exact (read_of_content (content_textStream hchars)).trans
      (read_of_content (content_textStream hzero)).symm

end Sources

/-- A character of two bytes, and a line end of two characters between the parts. -/
theorem read_sources_lines :
    let cs := ['[', '\x22', 'é', '\x22', ',', '\r', '\n', '1', ']']
    let w : Workspace := ⟨[(["d.json"], .file (Utf8.encode cs))]⟩
    '\x00' ∉ "d.json".toList ∧ w.node "d.json" = .ok (.file (Utf8.encode cs)) ∧
      (textStream cs none).read w (.int 100) = .ok (.list [.text "é", .int 1]) ∧
      Agree ((Upload.file "d.json").read w (.int 100))
        ((byteStream (Utf8.encode cs) none).read w (.int 100))
        ((textStream cs none).read w (.int 100)) := by
  intro cs w
  have hnul : '\x00' ∉ "d.json".toList := by decide
  have hnode : w.node "d.json" = .ok (.file (Utf8.encode cs)) := rfl
  have hsize : isOver (Utf8.encode cs).length (.int 100) = false := by
    rw [isOver_int]
    decide
  have hchars : isOver cs.length (.int 100) = false := by
    rw [isOver_int]
    decide
  obtain ⟨hagree, -⟩ := read_sources hnul hnode none none (.int 100)
  refine ⟨hnul, hnode, ?_, hagree.mpr (.inl fun hover => hchars.trans (hsize.symm.trans hover))⟩
  rw [read_of_content (content_textStream hchars)]
  rfl

/-- Between the sizes of a text only its stream of characters is read. -/
theorem read_sources_between :
    let cs := ['\x22', 'é', '\x22']
    let w : Workspace := ⟨[(["d.json"], .file (Utf8.encode cs))]⟩
    (Upload.file "d.json").read w (.int 3) = .error (.load (.tooLarge "d.json" 4 "3")) ∧
      (byteStream (Utf8.encode cs) none).read w (.int 3) =
        .error (.load (.tooLarge "Upload" 4 "3")) ∧
      (textStream cs none).read w (.int 3) = .ok (.text "é") := by
  intro cs w
  have hover : isOver (Utf8.encode cs).length (.int 3) = true := by
    rw [isOver_int]
    decide
  have hchars : isOver cs.length (.int 3) = false := by
    rw [isOver_int]
    decide
  have hsize : w.size "d.json" = .ok (Utf8.encode cs).length := rfl
  refine ⟨?_, ?_, ?_⟩
  · rw [read_of_hasFault (.tooLarge (by decide) hsize hover)]
    rfl
  · rw [read_byteStream_of_isOver hover]
    rfl
  · rw [read_of_content (content_textStream hchars)]
    rfl

end Upload

end Timeline
