import CurryGen.Proofs.Token.Cover
import CurryGen.Proofs.Token.Word

/-!
# Texts written from tokens

Texts that are put together from the texts of tokens, with blanks where they are needed.

* `Token.texts`: the texts of tokens, one after another.
* `Covers.append_space`, `Covers.intercalate`: parts with a blank or a comma between them.
* `Leads`: a text that has its tokens before another text.
-/

namespace CurryGen

/-- The texts of tokens, one after another. -/
def Token.texts (ts : List Token) : List Char := ts.flatMap (·.text.toList)

namespace Token

@[simp] theorem texts_nil : texts [] = [] := rfl

@[simp] theorem texts_cons (t : Token) (ts : List Token) :
    texts (t :: ts) = t.text.toList ++ texts ts := List.flatMap_cons

@[simp] theorem texts_append (ts us : List Token) : texts (ts ++ us) = texts ts ++ texts us :=
  List.flatMap_append

end Token

namespace Scan

/-! ## Parts -/

theorem separates_space : separates ' ' = true := by decide

theorem Covers.append_space {u v : List Char} {ts us : List Token} (hu : Covers u ts)
    (hv : Covers v us) : Covers (u ++ ' ' :: v) (ts ++ us) :=
  hu.append separates_space (.space rfl hv)

/-- Parts with a comma between them. -/
theorem Covers.intercalate {α : Type} {f : α → List Char} {g : α → List Token} {xs : List α}
    (h : ∀ x ∈ xs, Covers (f x) (g x)) :
    Covers ([',', ' '].intercalate (xs.map f)) ([.symbol ","].intercalate (xs.map g)) := by
  induction xs with
  | nil => exact .nil
  | cons x xs ih =>
    obtain ⟨hx, hxs⟩ := List.forall_mem_cons.1 h
    cases xs with
    | nil =>
      rw [List.map_singleton, List.map_singleton, List.intercalate_singleton,
        List.intercalate_singleton]
      exact hx
    | cons x' xs =>
      have hblank : isSpace ' ' = true := rfl
      have hcomma := (stands_solitary (s := ",") (by decide) _).covers_append
        (.space hblank (ih hxs))
      have hall := hx.append (d := ',') (by decide) hcomma
      simp only [List.map_cons, List.intercalate_cons_cons, List.append_assoc]
      exact hall

/-! ## Fronts -/

/-- Before the text `y`, the text `u` has the tokens `us`, and the tokens of `y` come after them. -/
def Leads (u : List Char) (us : List Token) (y : List Char) : Prop :=
  ∀ ts, Scans (u ++ y) (us ++ ts) ↔ Scans y ts

namespace Leads

variable {u v y : List Char} {us vs : List Token}

theorem nil (y : List Char) : Leads [] [] y := fun _ => Iff.rfl

theorem append (hu : Leads u us (v ++ y)) (hv : Leads v vs y) :
    Leads (u ++ v) (us ++ vs) y := fun ts => by
  rw [List.append_assoc, List.append_assoc]
  exact (hu _).trans (hv ts)

theorem of_stands {t : Token} (h : Stands t y) : Leads t.text.toList [t] y := fun _ => h.scans_iff

theorem space (h : Leads u us (' ' :: y)) : Leads (u ++ [' ']) us y := fun ts => by
  rw [List.append_assoc]
  exact (h ts).trans (scans_space_iff rfl)

end Leads

end Scan

end CurryGen
