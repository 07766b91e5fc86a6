/-!
# Words of a name

Names are put together from words. A word is a run of ASCII letters and digits;
every other character separates words, and so does the step from a lower-case
letter or digit to an upper-case letter. So `user_id`, `user-id` and `userId`
have the same words up to case.
-/

namespace ElmCodec

abbrev Word := List Char

namespace Word

/-- Splits `text`, read inside a word whose last letter is lower-case or a digit
when `lower` holds. Returns the rest of that word and the words after it. -/
def scan (lower : Bool) : List Char → Word × List Word
  | [] => ([], [])
  | c :: rest =>
    if !c.isAlphanum then
      match scan false rest with
      | ([], words) => ([], words)
      | (word, words) => ([], word :: words)
    else if c.isUpper && lower then
      let (word, words) := scan false rest
      ([], (c :: word) :: words)
    else
      let (word, words) := scan (c.isLower || c.isDigit) rest
      (c :: word, words)

def split (text : List Char) : List Word :=
  match scan false text with
  | ([], words) => words
  | (word, words) => word :: words

def capitalize : Word → Word
  | [] => []
  | c :: rest => c.toUpper :: rest

def title (words : List Word) : List Char := words.flatMap capitalize

def camel : List Word → List Char
  | [] => []
  | word :: rest => word.map Char.toLower ++ title rest

end Word

end ElmCodec
