import ReactiveView.Text.CodePoints

/-!
# Characters of identifiers

Code points past ASCII that may start an identifier (the Unicode property `ID_Start`) and those
that may only continue one (`ID_Continue` without `ID_Start`, and the two joiners).
-/

namespace ReactiveView.Script

def identStartRuns : List Nat := Text.readRuns 0
    ("GobkbebfxbBfbRqemofhbbbEzfbccebbgbbdbbbubDfbFjiGkbBmcbgBpCtBbeeBtBrBjcbDvbbpchckdcbqbbBeBdDll" ++
    "byBhjcebfwebjbdbxzhlfybgrBqCgCcdbsbhkpqeicccwbhbbdedbqbncbdockbigeccwbhbcbcbcBfebbtdqjbdbwbhb" ++
    "cbfdbsbpcxblicccwbhbcbfdbBecbdpbrbbgddbedcbbbcdcdddmwbCaibdbxbqdbBadcbccBebeibdbxbkbfdbBfcbcp" ++
    "crjbdbBpcbqbfdidygfsdybjbbchCgBwbcmhCgcbbbfbybbbkbcjbcfbbveBgbClibBkBbfElBrubqgeedbdchdenmbrB" ++
    "mbbfbcBrbMvbechbbbecBpbecBhbechbbbecpbCfbecCpBlqqDicgdXwcrbBafCxdlhsntosonbdpCaBjbebCpDlhBpbb" ++
    "fCskBfBxBecflBseBaCcxjCbDebDpBvriCcBenckBsBaBkBpdkBkcjhBrcdBpebgbcdbfHkCmKscgcBmcgcibbbbbbbBf" ++
    "cCbbhbbddbhdecgenfdbhEmbnbqnDxbebckbbcggbbbbbbqceffebrBpDZbIvgedcmBmbbfbcCehbqxjhbhbhbhbhbhbh" ++
    "bhVedzjhfcfeDiefbDmbefBrbDqrBgBwqTsJToCmBGUfCpBucKjdqkcuBvqBfcDcBnjcDzcCmfcbbbfyqbdbebxBdCaoB" ++
    "yCkgdbbclBckxzBdhBvBcbqfbkkfbBpxdbiuxdbdBybbdccfcbbbydclhdmgcgcgjhbhbBrbogElBdQNsmxeBxMNcOccE" ++
    "cBmhmffbbkbnbfbbbcbcbEeBhNzsCmcCcBomEmfbFfBkBagBalDldgcgcgcdBjmbBabtbcbpcoBiEtCrCbKhBddBxBvBg" ++
    "nBefBmkBecBkeibfBqGcsBkeBkeBoiCamlbpbhbcblbpbhbcCpLzjwkiygbBqbjCrgcbbBsbcdbcxkxjBfCntbckwkBaC" ++
    "sCegcCmbpebdbBdBqBddBdBjibBcBbCckwktnsEgCvCdBznBznBkNkBqgcDaBdkbiwBqsBuvBbxmCbCfccbnBtBgzBaBk" ++
    "BdbcbiBjdbmBwoevbbbBjsbzDghbbbebpbkhBvBmicccwbhbcbfdbsbmfGcCbseudBeBwucbbHcBvBpeBkBwubChBrnbC" ++
    "tBbBlhHdBsEmCmBficbcibcbypbbbDqicBnqbbbBcbkBohbvblButbsCvKdjbBlrbBxBeEihbcbBmvbzgbcbBgobMptHh" ++
    "bDbBJmDyEhrHoDXkDtpBPfFZtWlMUbVxhBfrDbrBesBwqeBfvftBAmCmEyCxfbConCmcbbBcJCaiBVqBqjNFrebhbcbLf" ++
    "BtdreiPgDKuEdfndjhkIWkDhbCtbccbcccebmbbbhbCnbecibhbBcbebfbbdhbNcczbzbBfbzbBfbzbBfbzbBfbzbiCSy" ++
    "BfSnBtkhqbMjBesBsBWuhbebcbpbHpChCqhbBUiebBbbcbbcbbkbebbbbgbebbbbbbdbcbbcbbbbbbbbbbcbbcebhbebe" ++
    "bbbkbrfdbfbrGOaCLFcBgGDthIocINqoLBlEPjUwCFyHHz").toList

def identContinueRuns : List Nat := Text.readRuns 0
    ("HbbWmEixbJrfKfBtbbbcbcbbCulBwBfgbDxhcgccbeckxbBeBbDnlpkBhjjbyebjbdbfBrdCiiBqybBhCcdbsbhkcckrd" ++
    "CebbhcccdjbkcckobcdCebbfeccddbumdbldCebbibdbducckkgbdCebbhcccdhdkccksbChfddbejbokqfCdbbhbdbeh" ++
    "clcckrdCebbhbdbehclcckqeCdcbhbdbejbkcckrdCsbegbbbigkccCjbchmibkDjbcjlgckCkcgklbbbbbecBxubcflb" ++
    "BkjbDwubkmeedbdchdenmbpBBbdjjBJseBcdBdcBecCmBgjbckBhdblFnbEomemkkEylCifCfkbBdclgkwobqBxfBvrlk" ++
    "rjmdBenckBsoBwuikgkEodbvebgbcdHqCmUecBxctbEtnebdmEOcdFlbDsBgVigEbcDsbBSJkkCrbekBgcDccKmbdbebx" ++
    "febDfcByskkgsnlBciznBseBvopklbkkBvombicckBhdBybbdccfcbbBpffcJcibcckBDZgbBCjqqqdcydHkkBlbBlbZn" ++
    "bIsbFtfLhkCApdbcfeBodebGjcWbeikOfcFxlBxeEsdCbpBflcckeBtlhbBtkgdBkobkfcBsbmdBwoiebmDemgbGemfkg" ++
    "eCdcbhcccdjbkcchdfHksjkebDdumkIfhcjBbcDerpkDdnikDfpekJipGjkCsgbccebbbcmkEphchdbBckBohbeibjlBu" ++
    "qPpibiqkCewboEsgdbbcbhbbikBwfbcbfikMreBCOnkDikBmfChhzkBMzbbCdheDdblcBDAxcGYzBucxUwfdgiichBeeF" ++
    "sdCCnByTsCdeByibobwfbpCAihbrchbcbfKbhjkNsbCjoCFmhEfhfkHBakBSVGwJg").toList

def isIdentStart (c : Char) : Bool :=
  if c.toNat < 128 then c.isAlpha || c = '_' || c = '$'
  else Text.inRuns identStartRuns c.toNat

def isIdentPart (c : Char) : Bool :=
  if c.toNat < 128 then c.isAlphanum || c = '_' || c = '$'
  else isIdentStart c || Text.inRuns identContinueRuns c.toNat

end ReactiveView.Script
