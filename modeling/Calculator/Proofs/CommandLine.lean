import Calculator.CommandLine.Settings
import Calculator.Proofs.NumberText

/-!
# Command lines for given settings

* `Settings.places?_toString`: a number of places is read back
* `Settings.ofWords_file`, `Settings.ofWords_standardInput`: there is a command line for every form
  of the replies, every number of places and every path
-/

namespace Calculator.Settings

theorem toList_toString (n : Nat) : (toString n).toList = Nat.toDigits 10 n := by
  rw [Nat.toString_eq_ofList_toDigits, String.toList_ofList]

/-- A number is read as that number of places. -/
theorem places?_toString {n : Nat} (h : n < UInt64.size) :
    places? (toString n).toList = some n := by
  have hdigits : ∀ c ∈ Nat.toDigits 10 n, c.isDigit = true := fun _ => isDigit_of_mem_toDigits
  rw [toList_toString, places?, Sign.split_of_isDigit hdigits]
  dsimp only
  rw [Nat.ofDigitChars_ten_toDigits]
  exact if_pos ⟨by decide, Nat.toDigits_ne_nil, List.all_eq_true.mpr hdigits, h⟩

/-- A number is no option. -/
theorem isOption_toString (n : Nat) : isOption (toString n).toList = false := by
  rw [toList_toString]
  unfold isOption
  split
  · next c cs hdash =>
    have hdigit : ('-' : Char).isDigit = true :=
      isDigit_of_mem_toDigits (hdash ▸ List.mem_cons_self)
    exact absurd hdigit (by decide)
  · rfl

/-- The word behind an option that lacks its value is the value. -/
theorem Draft.setWords_awaiting (d : Draft) (word : List Char) (words : List (List Char)) :
    d.setWords true (word :: words) = if isOption word then .error .misuse
      else d.setPlaces word >>= fun d => d.setWords false words := rfl

/-- The words that ask for a form of the replies and a number of places. -/
def wordsFor (json : Bool) (places : Nat) : List String :=
  (if json then ["-j"] else []) ++ ["-p", toString places]

theorem setWords_wordsFor (json : Bool) {places : Nat} (h : places < UInt64.size)
    (words : List (List Char)) :
    Draft.blank.setWords false ((wordsFor json places).map String.toList ++ words) =
      (Draft.mk false json (some places) none).setWords false words := by
  have hnumber : ∀ json, (Draft.mk false json none none).setWords true
      ((toString places).toList :: words) =
        (Draft.mk false json (some places) none).setWords false words := by
    intro json
    rw [Draft.setWords_awaiting, isOption_toString, if_neg (by decide), Draft.setPlaces,
      places?_toString h]
    rfl
  cases json with
  | false => exact hnumber false
  | true => exact hnumber true

theorem ofWords_standardInput (json : Bool) {places : Nat} (h : places < UInt64.size)
    (environment : Option String) :
    ofWords (wordsFor json places) environment = .ok ⟨json, places, .standardInput⟩ := by
  have hdraft := setWords_wordsFor json h []
  rw [List.append_nil] at hdraft
  rw [ofWords, hdraft]
  rfl

theorem ofWords_file (json : Bool) {places : Nat} (h : places < UInt64.size) (path : String)
    (environment : Option String) :
    ofWords (wordsFor json places ++ ["-f", "--", path]) environment =
      .ok ⟨json, places, .file path⟩ := by
  have hdraft : Draft.blank.setWords false
      ((wordsFor json places ++ ["-f", "--", path]).map String.toList) =
        .ok ⟨true, json, some places, some path⟩ := by
    rw [List.map_append, setWords_wordsFor json h]
    show Except.ok (Draft.mk true json (some places) (some (String.ofList path.toList))) = _
    rw [String.ofList_toList]
  rw [ofWords, hdraft]
  rfl

end Calculator.Settings
