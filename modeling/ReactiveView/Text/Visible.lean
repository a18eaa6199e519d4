import ReactiveView.Text.CodePoints

/-!
# Visible characters

A character is visible if it shows up as a mark of its own: it is assigned, no control or format
character, no blank other than the space, and does not combine with the character before it.
-/

namespace ReactiveView.Text

def invisibleRuns : List Nat := readRuns 0
    ("aBgDrBimbWwEiicgehbbbubIqhGkbBmcBycdBubbbcbcbjBbegrklbbBuvqbDxibgccbeBgcbbBeBdDllboBrjhdyebjb" ++
    "dbhpbzfbblfBfrBqCfCdbbbeiebdhkcBdbcbicccwbhbbdedbbcgcccbbncbdeyfbbgeccwbhbcbcbcedyebbhkcdbbmb" ++
    "bjbdbwbhbcbfdeibbcdbpcemhbicbicccwbhbcbfdbcbgcccpcbdeslbbgddbedcbbbcdcdddmfbbcddbddbvvgdbibdb" ++
    "xbqdbdetdcbccekhkblbdbxbkbfdccbbcycbcekbdolbdbBpcbbcfdbdbcedbkeBaccbsdybjbbchjcghhkcdmBwbclii" ++
    "nBlcbbbfbybbbkbcjbcfbbjkceBgycBbbbbbbobBksbfbcfBxibgbnBlBtebgbccczcedqenbccgbpbBobbfbcOnbechb" ++
    "bbecBpbecBhbechbbbecpbCfbecCpfBddBagDicgcYqbBcdDlhsntdcjsonbdpCacbhibcljdkgkglfkgDlhfcBibbfCs" ++
    "kBfeecdecbghbdBqcflBseBagldCfccdCebbjbbcignkgkgoDiBwkedidBbjldBgecgCebbcdbbnBwicfpdCkfBrcllbn" ++
    "bhebgbdcbfHkCmKscgcBmcgcibbbbbbbBfcCbbpbocgbtcdbjryiBvrccBbbndBhClFkeZnzlvCRscBgbNgdcfBtbbfbc" ++
    "CehcpxjhbhbhbhbhbhbhbhBhDqBiBabDlmIgBaqbBpgqbDieDxfBrbDqbDglBwbBRIrdCdjNkuBvebkBgcDccgiHyccbb" ++
    "bivqbdbebzcfekgCeiCqkmynbBmizlbmBegBwbcecccbnblehbzbBpgcccldbibbckcBgbBzbbdccfcbbbyrcilgcgcgj" ++
    "hbhbCieEnbcbedkgQNsmxeBxMNcOccEcBmhmffbbybfbbbcbcbEvqRdcCchbBgqqkwBjbtbeefbFfeGbcBfdgcgcgcddh" ++
    "bhnccmbBabtbcbpcoBiEtfdeBtdDkbndbBvBtFbBddBxqBbeBkjBefBmkBebBleoBqGcckgBkeBkeBoiCalmbpbhbcblb" ++
    "pbhbcdCamLzjwkiygbBqbjCrgcbbBsbcdbcxbCuijBwtbcfBhdBbfbCmCeeucBvpebdbBdkjhjhCmBgBlgmjCcdBdcBbf" ++
    "BahemhDcCvCdBznBzhBqmkgBmiyicIaBfbBqdbccqdChBoiwljwseeBmBcuxjbbCcpheBebccbmBxecccbeozhkjBkfbj" ++
    "siBjbdlCajbbiecbqbulsbBcdcegbcClhbbbebpblgBvbdnkicbicccwbhbcbfdbbbbeccccdbmhGaCeicdbbvbbbdBeB" ++
    "wbcgbbcbbcbceikGkBvbcgecbcBbBkBzicbbcelkgntBrbbbcicgkguBcBbfcebjxHdBvjbcbDwDfmicbcibcbybfbcge" ++
    "bdjkCsicBqiebeBbbkBogceijbgcdBunbcjnCvhkHaBiokgjbBmobbgkBddBgzbhbcbCxhbcbBmvbjkggbcbBlecbbbbh" ++
    "kLytcejpbBkicbbbxDibpBynBJnDyEhbflHoDXkDvnBPgrgzFXrfWlMUbVxhBfbkeDdbkgBehbkBwhpkkbhbvftQqCgHq" ++
    "DnDxCxfCelnCmeBcJCaiBVqBpkNFrebhbcbLfpbBddcboeiPgDKuEdfndjhkcbcbFVkJqgQuGaEmCiJmkBncCifdwchBe" ++
    "eCjvCodbEsumumDjjzFfDhbCtbccbcccebmbbbhbCnbecibhbBcbebfbbdhbNccLgcVqCdeByibobhBRwBfggKbCkFqBt" ++
    "khckecMiBesBsekfbRwBcekIgBeclebSmhbebcbpbHpcjBwCqhbekecBEfCqCyCjHmebBbbcbbcbbkbebbbbgbebbbbbb" ++
    "dbcbbcbbbbbbbbbbcbbcebhbebebbbkbrfdbfbrCacKkBseDwmpcpbpbBlkGsCeBdnBsejhcogFyBLwerdndEpeDrgmeb" ++
    "pmeCeikgBoiBecmecCkNcmocndkfCehpclgjhFrbDyBNqCLFcBgGDugIocINqoLBlpXyDQwUwCFyHHzfGFgBZRTg").toList

def isVisible (c : Char) : Bool := !inRuns invisibleRuns c.toNat

end ReactiveView.Text
