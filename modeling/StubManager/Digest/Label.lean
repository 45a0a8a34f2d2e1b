/-!
# Written digests

A digest is written in hexadecimal, with or without the name of its hash function in front.
`Digest.agree` compares two written digests. Main statements: `agree_iff`, they are compared in one
form, and `unlabelled_label`, the name in front makes no difference to it.
-/

namespace StubManager.Digest

/-- The name of the hash function, as it stands before a digest. -/
def label : List Char := ['b', 'l', 'a', 'k', 'e', '3', ':']

/-- A written digest without the name in front. -/
def unlabelled (digest : List Char) : List Char :=
  if label.isPrefixOf digest then digest.drop label.length else digest

/-- The form in which written digests are compared: ASCII letters in lower case. -/
def normal (digest : List Char) : List Char := (unlabelled digest).map Char.toLower

/-- Whether two written digests are the same, in either case and with or without a name. -/
def agree (expected actual : String) : Bool := normal expected.toList == normal actual.toList

theorem agree_iff {expected actual : String} :
    agree expected actual = true ↔ normal expected.toList = normal actual.toList := by
  simp [agree]

theorem unlabelled_label (digest : List Char) : unlabelled (label ++ digest) = digest := by
  simp [unlabelled, label]

end StubManager.Digest
