import Mathlib.Tactic.Common

/-!
# Sealed boxes

A text is enciphered under a nonce, and a tag is made of what the scheme chooses to cover.
Opening a box that was sealed gives the text back. If no tag can be made up, a box that
opens was sealed for the text it gives exactly when its nonce and its body stand together in
a box that was sealed.
-/

namespace SeaClaw.Lib

/-- What is stored for a text. -/
@[ext] structure SealedBox (N C T : Type*) where
  nonce : N
  body : C
  tag : T

namespace SealedBox

variable {N C T M : Type*} [DecidableEq T] (cipher : N → C → C) (covered : N → C → M)
  (mac : M → T)

/-- The box for a text. -/
def put (nonce : N) (text : C) : SealedBox N C T :=
  ⟨nonce, cipher nonce text, mac (covered nonce (cipher nonce text))⟩

/-- The text of a box whose tag is right. -/
def open? (box : SealedBox N C T) : Option C :=
  if mac (covered box.nonce box.body) = box.tag then some (cipher box.nonce box.body) else none

variable {cipher covered mac}

/-- A box opens to the text for which it was sealed, under any key with the same tag and the
same cipher for it. -/
theorem open?_put {cipher' : N → C → C} {mac' : M → T} {nonce : N} {text : C} :
    open? cipher' covered mac' (put cipher covered mac nonce text) = some text ↔
      mac' (covered nonce (cipher nonce text)) = mac (covered nonce (cipher nonce text)) ∧
        cipher' nonce (cipher nonce text) = text := by
  rw [open?, put]
  split_ifs with htag
  · rw [Option.some.injEq]
    exact ⟨fun h => ⟨htag, h⟩, fun h => h.2⟩
  · exact ⟨fun h => absurd h (by simp), fun h => absurd h.1 htag⟩

/-- A box that opens was sealed for its text exactly when a box with its nonce and its body
was sealed. -/
theorem sealed_iff (hcipher : ∀ nonce, Function.Involutive (cipher nonce))
    {sealedTexts : N → C → Prop} {box : SealedBox N C T} {text : C}
    (h : open? cipher covered mac box = some text) :
    (sealedTexts box.nonce text ∧ box = put cipher covered mac box.nonce text) ↔
      ∃ t, sealedTexts box.nonce t ∧ box.body = cipher box.nonce t := by
  rw [open?, Option.ite_none_right_eq_some, Option.some.injEq] at h
  obtain ⟨htag, htext⟩ := h
  have hbody : box.body = cipher box.nonce text := by rw [← htext, hcipher]
  constructor
  · rintro ⟨hsealed, -⟩
    exact ⟨text, hsealed, hbody⟩
  · rintro ⟨t, hsealed, ht⟩
    obtain rfl : t = text := by rw [← htext, ht, hcipher]
    refine ⟨hsealed, ?_⟩
    ext
    · rfl
    · exact hbody
    · rw [put, ← hbody, htag]

end SealedBox

end SeaClaw.Lib
